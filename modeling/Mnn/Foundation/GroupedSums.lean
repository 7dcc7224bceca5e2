import Mathlib

/-!
# Sums of groups

Terms go to cells, and a cell gets the sum of its terms.  If the terms come in
groups of one cell each, the sums of the groups can be stored one after the
other, unless a cell has more than one group.
-/

namespace Mnn.Foundation.GroupedSums

open List
open Function

variable {Cell Number : Type} [DecidableEq Cell]

/-- Values are stored one after the other. -/
def storeAll (writes : List (Cell × Number)) (target : Cell → Number) : Cell → Number :=
  writes.foldl (fun target write => update target write.1 write.2) target

theorem storeAll_cons (write : Cell × Number) (writes : List (Cell × Number))
    (target : Cell → Number) :
    storeAll (write :: writes) target = storeAll writes (update target write.1 write.2) :=
  rfl

theorem storeAll_other {writes : List (Cell × Number)} {cell : Cell}
    (other : cell ∉ writes.map Prod.fst) (target : Cell → Number) :
    storeAll writes target cell = target cell := by
  induction writes generalizing target with
  | nil => rfl
  | cons write writes ih =>
    rw [map_cons, mem_cons, not_or] at other
    rw [storeAll_cons, ih other.2, update_of_ne other.1]

/-- A cell keeps what is stored if all that is stored there is the same. -/
theorem storeAll_of_mem {writes : List (Cell × Number)} {cell : Cell} {value : Number}
    (agree : ∀ value', (cell, value') ∈ writes → value' = value)
    (isIn : (cell, value) ∈ writes) (target : Cell → Number) :
    storeAll writes target cell = value := by
  induction writes generalizing target with
  | nil => nomatch isIn
  | cons write writes ih =>
    rw [storeAll_cons]
    by_cases isLater : cell ∈ writes.map Prod.fst
    · rcases mem_map.mp isLater with ⟨⟨_, value'⟩, isIn', rfl⟩
      obtain rfl := agree value' (mem_cons_of_mem _ isIn')
      exact ih (fun other isOther => agree other (mem_cons_of_mem _ isOther)) isIn' _
    · rw [storeAll_other isLater]
      rcases mem_cons.mp isIn with rfl | isIn
      · exact update_self ..
      · exact absurd (mem_map.mpr ⟨_, isIn, rfl⟩) isLater

/-- The terms of some groups. -/
def termsOf (groups : List (Cell × List Number)) : List (Cell × Number) :=
  groups.flatMap fun group => group.2.map fun value => (group.1, value)

omit [DecidableEq Cell] in
theorem mem_termsOf {groups : List (Cell × List Number)}
    (some : ∀ group ∈ groups, group.2 ≠ []) {cell : Cell} :
    cell ∈ (termsOf groups).map Prod.fst ↔ cell ∈ groups.map Prod.fst := by
  simp only [termsOf, map_flatMap, mem_flatMap, map_map, mem_map]
  constructor
  · rintro ⟨group, isGroup, value, -, rfl⟩
    exact ⟨group, isGroup, rfl⟩
  · rintro ⟨group, isGroup, rfl⟩
    rcases exists_mem_of_ne_nil _ (some group isGroup) with ⟨value, isValue⟩
    exact ⟨group, isGroup, value, isValue, rfl⟩

section Sums

variable [AddCommMonoid Number]

/-- A cell with terms gets their sum. -/
def sumAll (terms : List (Cell × Number)) (target : Cell → Number) : Cell → Number :=
  fun cell =>
    if cell ∈ terms.map Prod.fst then
      ((terms.filter fun term => term.1 = cell).map Prod.snd).sum
    else
      target cell

theorem sumAll_perm {first second : List (Cell × Number)} (isPerm : first.Perm second)
    (target : Cell → Number) : sumAll first target = sumAll second target := by
  funext cell
  rw [sumAll, sumAll, ((isPerm.filter _).map Prod.snd).sum_eq]
  exact if_congr (isPerm.map Prod.fst).mem_iff rfl rfl

/-- The sums of some groups. -/
def sumsOf (groups : List (Cell × List Number)) : List (Cell × Number) :=
  groups.map fun group => (group.1, group.2.sum)

omit [DecidableEq Cell] in
theorem cells_sumsOf (groups : List (Cell × List Number)) :
    (sumsOf groups).map Prod.fst = groups.map Prod.fst := by
  rw [sumsOf, map_map]
  rfl

theorem sum_filter_termsOf (groups : List (Cell × List Number)) (cell : Cell) :
    (((termsOf groups).filter fun term => term.1 = cell).map Prod.snd).sum =
      ((groups.filter fun group => group.1 = cell).map fun group => group.2.sum).sum := by
  induction groups with
  | nil => rfl
  | cons group groups ih =>
    have isHead : (((group.2.map fun value => (group.1, value)).filter fun term =>
          term.1 = cell).map Prod.snd).sum =
        if group.1 = cell then group.2.sum else 0 := by
      rw [filter_map, map_map]
      split
      · rename_i isCell
        have all : ∀ value ∈ group.2, decide ((group.1, value).1 = cell) = true :=
          fun _ _ => decide_eq_true isCell
        refine (congrArg (fun values => (List.map _ values).sum) (filter_eq_self.mpr all)).trans ?_
        exact congrArg List.sum (map_id _)
      · rename_i notCell
        have none : ∀ value ∈ group.2, ¬decide ((group.1, value).1 = cell) = true :=
          fun _ _ isCell => notCell (of_decide_eq_true isCell)
        exact congrArg (fun values => (List.map _ values).sum) (filter_eq_nil_iff.mpr none)
    show (((_ ++ termsOf groups).filter _).map Prod.snd).sum = _
    rw [filter_append, map_append, sum_append, isHead, ih]
    by_cases isCell : group.1 = cell
    · rw [if_pos isCell, filter_cons, if_pos (decide_eq_true isCell), map_cons, sum_cons]
    · rw [if_neg isCell, zero_add, filter_cons, if_neg fun same => isCell (of_decide_eq_true same)]

variable {groups : List (Cell × List Number)}

/-- Groups of cells of their own are stored one after the other. -/
theorem storeAll_sumsOf
    (some : ∀ group ∈ groups, group.2 ≠ []) (distinct : (groups.map Prod.fst).Nodup)
    (target : Cell → Number) :
    storeAll (sumsOf groups) target = sumAll (termsOf groups) target := by
  funext cell
  rw [sumAll, sum_filter_termsOf, if_congr (mem_termsOf some) rfl rfl]
  clear some
  induction groups generalizing target with
  | nil => rfl
  | cons group groups ih =>
    rw [map_cons, nodup_cons] at distinct
    show storeAll (sumsOf groups) (update target group.1 group.2.sum) cell = _
    by_cases isCell : group.1 = cell
    · subst isCell
      have none : groups.filter (fun other => decide (other.1 = group.1)) = [] :=
        filter_eq_nil_iff.mpr fun other isIn same =>
          distinct.1 (mem_map.mpr ⟨other, isIn, of_decide_eq_true same⟩)
      rw [storeAll_other (by rw [cells_sumsOf]; exact distinct.1), update_self,
        map_cons, if_pos mem_cons_self, filter_cons,
        if_pos (decide_eq_true rfl), none]
      exact (add_zero _).symm
    · have isOther : cell ≠ group.1 := fun same => isCell same.symm
      rw [ih distinct.2, update_of_ne isOther, map_cons,
        filter_cons, if_neg fun same => isCell (of_decide_eq_true same)]
      refine if_congr ?_ rfl rfl
      rw [mem_cons, or_iff_right isOther]

/-- Otherwise a group is lost if the groups have the same sum, which is not zero. -/
theorem nodup_of_storeAll {value : Number}
    (some : ∀ group ∈ groups, group.2 ≠ []) (sums : ∀ group ∈ groups, group.2.sum = value)
    (single : ∀ count : Nat, count • value = value → count = 1) {target : Cell → Number}
    (same : storeAll (sumsOf groups) target = sumAll (termsOf groups) target) :
    (groups.map Prod.fst).Nodup := by
  refine nodup_iff_count_eq_one.mpr fun cell isCell => ?_
  rcases mem_map.mp isCell with ⟨group, isGroup, rfl⟩
  have stored : storeAll (sumsOf groups) target group.1 = value := by
    refine storeAll_of_mem ?_ (mem_map.mpr ⟨group, isGroup, ?_⟩) target
    · intro value' isIn
      rcases mem_map.mp isIn with ⟨other, isOther, isPair⟩
      rw [← (Prod.mk.inj isPair).2, sums other isOther]
    · rw [sums group isGroup]
  have total :
      ((groups.filter fun other => other.1 = group.1).map fun other => other.2.sum) =
        List.replicate ((groups.map Prod.fst).count group.1) value := by
    refine eq_replicate_iff.mpr ⟨?_, ?_⟩
    · rw [length_map, List.count, countP_map, countP_eq_length_filter]
      rfl
    · intro sum isIn
      rcases mem_map.mp isIn with ⟨other, isOther, rfl⟩
      exact sums other (mem_filter.mp isOther).1
  have here := congrFun same group.1
  rw [stored, sumAll, if_pos ((mem_termsOf some).mpr isCell), sum_filter_termsOf, total,
    sum_replicate] at here
  exact single _ here.symm

end Sums

end Mnn.Foundation.GroupedSums
