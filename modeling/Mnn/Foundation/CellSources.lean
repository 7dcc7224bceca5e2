import Mathlib

/-!
# What is written to a cell

Writes are pairs of a source and a cell.  Where they are listed by loops, and the cell
determines the turn of each loop, a cell has at most one source.
-/

namespace Mnn.Foundation.CellSources

open List

variable {Source Cell : Type*} [DecidableEq Cell]

/-- The sources that are written to a cell, in their order. -/
def sourcesAt (cell : Cell) (writes : List (Source × Cell)) : List Source :=
  (writes.filter fun write => write.2 = cell).map Prod.fst

theorem sourcesAt_append (cell : Cell) (first second : List (Source × Cell)) :
    sourcesAt cell (first ++ second) = sourcesAt cell first ++ sourcesAt cell second := by
  rw [sourcesAt, filter_append, map_append]
  rfl

theorem sourcesAt_singleton (cell : Cell) (source : Source) (target : Cell) :
    sourcesAt cell [(source, target)] = if target = cell then [source] else [] := by
  rw [sourcesAt, filter_singleton]
  by_cases same : target = cell
  · rw [decide_eq_true same, if_pos same]
    rfl
  · rw [decide_eq_false same, if_neg same]
    rfl

variable {cell : Cell} {writes : List (Source × Cell)}

theorem mem_sourcesAt {source : Source} :
    source ∈ sourcesAt cell writes ↔ (source, cell) ∈ writes := by
  simp [sourcesAt]

theorem sourcesAt_eq_nil
    (elsewhere : ∀ write ∈ writes, write.2 ≠ cell) : sourcesAt cell writes = [] := by
  refine eq_nil_iff_forall_not_mem.mpr fun source isIn => ?_
  exact elsewhere _ (mem_sourcesAt.mp isIn) rfl

theorem sourcesAt_loop (count first turn : Nat) (writes : Nat → List (Source × Cell))
    (elsewhere : ∀ i < count, first + i ≠ turn → sourcesAt cell (writes i) = []) :
    sourcesAt cell ((List.range count).flatMap writes) =
      if first ≤ turn ∧ turn < first + count then sourcesAt cell (writes (turn - first))
      else [] := by
  induction count with
  | zero =>
    rw [if_neg (by omega)]
    rfl
  | succ count ih =>
    have before := ih fun i less => elsewhere i (Nat.lt_succ_of_lt less)
    rw [range_succ, flatMap_append, sourcesAt_append, before, flatMap_singleton]
    by_cases isLast : first + count = turn
    · have isTurn : turn - first = count := by omega
      rw [if_neg (by omega), if_pos (by omega), isTurn, nil_append]
    · rw [elsewhere count (Nat.lt_succ_self count) isLast, append_nil]
      by_cases isInside : first ≤ turn ∧ turn < first + count
      · rw [if_pos isInside, if_pos (by omega)]
      · rw [if_neg isInside, if_neg (by omega)]

/-- A loop of which only one turn can have sources. -/
theorem sourcesAt_turn {count turn : Nat} {asked : Prop} [Decidable asked] {sources : List Source}
    {writes : Nat → List (Source × Cell)} (less : turn < count)
    (isAt :
      ∀ i < count, sourcesAt cell (writes i) = if i = turn ∧ asked then sources else []) :
    sourcesAt cell ((List.range count).flatMap writes) = if asked then sources else [] := by
  rw [sourcesAt_loop count 0 turn, if_pos (by omega), Nat.sub_zero, isAt turn less]
  · simp
  · intro i iLess other
    rw [isAt i iLess, if_neg (by omega)]

/-- The turns of three loops that write to the cell. -/
structure Turns (firsts sizes turns : Fin 3 → Nat) : Prop where
  outer : firsts 0 ≤ turns 0 ∧ turns 0 < firsts 0 + sizes 0
  middle : firsts 1 ≤ turns 1 ∧ turns 1 < firsts 1 + sizes 1
  inner : firsts 2 ≤ turns 2 ∧ turns 2 < firsts 2 + sizes 2

theorem sourcesAt_box {firsts sizes turns : Fin 3 → Nat} {matching : Prop}
    (source : Nat → Nat → Nat → Source) (target : Nat → Nat → Nat → Cell)
    (determined :
      ∀ i j k, i < sizes 0 → j < sizes 1 → k < sizes 2 → (target i j k = cell ↔
            matching ∧ firsts 0 + i = turns 0 ∧ firsts 1 + j = turns 1 ∧ firsts 2 + k = turns 2)) :
    ((matching ∧ Turns firsts sizes turns) ∧ sourcesAt cell ((List.range (sizes 0)).flatMap fun i =>
              (List.range (sizes 1)).flatMap fun j =>
                (List.range (sizes 2)).flatMap fun k =>
                  [(source i j k, target i j k)]) =
          [source (turns 0 - firsts 0) (turns 1 - firsts 1) (turns 2 - firsts 2)]) ∨
      ¬(matching ∧ Turns firsts sizes turns) ∧ sourcesAt cell
            ((List.range (sizes 0)).flatMap fun i =>
              (List.range (sizes 1)).flatMap fun j =>
                (List.range (sizes 2)).flatMap fun k =>
                  [(source i j k, target i j k)]) =
          [] := by
  by_cases isTurn : matching ∧ Turns firsts sizes turns
  · refine Or.inl ⟨isTurn, ?_⟩
    rcases isTurn with ⟨isMatching, ⟨outer, middle, inner⟩⟩
    have isOuter : turns 0 - firsts 0 < sizes 0 := by omega
    have isMiddle : turns 1 - firsts 1 < sizes 1 := by omega
    have isInner : turns 2 - firsts 2 < sizes 2 := by omega
    rw [sourcesAt_loop _ (firsts 0) (turns 0), if_pos outer,
      sourcesAt_loop _ (firsts 1) (turns 1), if_pos middle,
      sourcesAt_loop _ (firsts 2) (turns 2), if_pos inner, sourcesAt_singleton, if_pos]
    · refine (determined _ _ _ isOuter isMiddle isInner).mpr ⟨isMatching, ?_, ?_, ?_⟩
      · omega
      · omega
      · omega
    · intro k kLess other
      refine sourcesAt_eq_nil fun write isIn same => ?_
      obtain rfl := mem_singleton.mp isIn
      exact other ((determined _ _ k isOuter isMiddle kLess).mp same).2.2.2
    · intro j jLess other
      refine sourcesAt_eq_nil fun write isIn same => ?_
      rcases mem_flatMap.mp isIn with ⟨k, kLess, isIn⟩
      obtain rfl := mem_singleton.mp isIn
      exact other ((determined _ j k isOuter jLess (mem_range.mp kLess)).mp same).2.2.1
    · intro i iLess other
      refine sourcesAt_eq_nil fun write isIn same => ?_
      rcases mem_flatMap.mp isIn with ⟨j, jLess, isIn⟩
      rcases mem_flatMap.mp isIn with ⟨k, kLess, isIn⟩
      obtain rfl := mem_singleton.mp isIn
      exact other ((determined i j k iLess (mem_range.mp jLess) (mem_range.mp kLess)).mp same).2.1
  · refine Or.inr ⟨isTurn, sourcesAt_eq_nil fun write isIn same => isTurn ?_⟩
    rcases mem_flatMap.mp isIn with ⟨i, iLess, isIn⟩
    rcases mem_flatMap.mp isIn with ⟨j, jLess, isIn⟩
    rcases mem_flatMap.mp isIn with ⟨k, kLess, isIn⟩
    obtain rfl := mem_singleton.mp isIn
    rw [mem_range] at iLess jLess kLess
    rcases (determined i j k iLess jLess kLess).mp same with
      ⟨isMatching, atOuter, atMiddle, atInner⟩
    exact ⟨isMatching, ⟨by omega, by omega, by omega⟩⟩

end Mnn.Foundation.CellSources
