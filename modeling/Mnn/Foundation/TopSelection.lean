import Mathlib

/-!
# The best of a list

Items are sorted by falling scores, and the first ones are selected.  Items with equal
scores may come in any order, so two of them are told apart only where the selection ends
among the items with their score.
-/

namespace Mnn.Foundation.TopSelection

open List

variable {α Score : Type} [LinearOrder Score] {score : α → Score}

/-- The items in an order in which the scores fall. -/
structure Ranked (score : α → Score) (items sorted : List α) : Prop where
  perm : sorted.Perm items
  falls : sorted.Pairwise fun first second => score second ≤ score first

variable {items sorted : List α} {size : Nat}

variable (score) in
theorem exists_ranked (items : List α) : ∃ sorted, Ranked score items sorted := by
  refine ⟨items.mergeSort fun first second => decide (score second ≤ score first),
    mergeSort_perm .., ?_⟩
  refine (pairwise_mergeSort ?_ ?_ items).imp of_decide_eq_true
  · intro first second third le le'
    rw [decide_eq_true_iff] at le le' ⊢
    exact le_trans le' le
  · intro first second
    rw [Bool.or_eq_true, decide_eq_true_iff, decide_eq_true_iff]
    exact le_total ..

variable (score) in
/-- How many items are better than a score. -/
def better (items : List α) (value : Score) : Nat :=
  (items.filter fun item => decide (value < score item)).length

variable (score) in
/-- How many items are at least as good as a score. -/
def atLeast (items : List α) (value : Score) : Nat :=
  (items.filter fun item => decide (value ≤ score item)).length

section

variable (ranked : Ranked score items sorted) {first second : α}
  (selected : first ∈ sorted.take size) (left : second ∈ sorted.drop size)

include ranked selected left

theorem Ranked.score_le :
    score second ≤ score first := by
  have falls := ranked.falls
  rw [← take_append_drop size sorted, pairwise_append] at falls
  exact falls.2.2 first selected second left

/-- The selection only tells items with one score apart if it ends among them. -/
theorem Ranked.between (same : score first = score second) :
    better score items (score first) < size ∧ size < atLeast score items (score first) := by
  have full : (sorted.take size).length = size := by
    have some := length_pos_of_mem left
    rw [length_drop] at some
    rw [length_take]
    omega
  have split : ∀ p : α → Bool, (items.filter p).length =
      ((sorted.take size).filter p).length + ((sorted.drop size).filter p).length := by
    intro p
    rw [← (ranked.perm.filter p).length_eq, ← length_append, ← filter_append, take_append_drop]
  constructor
  · have noneLeft : ((sorted.drop size).filter fun item =>
        decide (score first < score item)) = [] := by
      rw [filter_eq_nil_iff]
      intro item member
      rw [decide_eq_true_iff, not_lt]
      exact ranked.score_le selected member
    have notAll : ((sorted.take size).filter fun item =>
        decide (score first < score item)).length < (sorted.take size).length := by
      refine length_filter_lt_length_iff_exists.mpr ⟨first, selected, ?_⟩
      rw [decide_eq_true_iff]
      exact lt_irrefl _
    rw [better, split, noneLeft, length_nil]
    omega
  · have all : ((sorted.take size).filter fun item =>
        decide (score first ≤ score item)) = sorted.take size := by
      rw [filter_eq_self]
      intro item member
      rw [decide_eq_true_iff, same]
      exact ranked.score_le member left
    have some : 0 < ((sorted.drop size).filter fun item =>
        decide (score first ≤ score item)).length := by
      refine length_pos_of_mem (mem_filter.mpr ⟨left, ?_⟩)
      rw [decide_eq_true_iff, same]
    rw [atLeast, split, all, full]
    omega

end

/-- Items with one score are told apart by some order if the selection ends among
them. -/
theorem exists_ranked_between [DecidableEq α] (nodup : items.Nodup) {first second : α}
    (isFirst : first ∈ items) (isSecond : second ∈ items) (differs : first ≠ second)
    (same : score first = score second) (less : better score items (score first) < size)
    (less' : size < atLeast score items (score first)) :
    ∃ sorted, Ranked score items sorted ∧ first ∈ sorted.take size ∧ second ∉ sorted.take size := by
  obtain ⟨high, isHigh⟩ :=
    exists_ranked score (items.filter fun item => decide (score first < score item))
  obtain ⟨low, isLow⟩ :=
    exists_ranked score (items.filter fun item => decide (score item < score first))
  have ties : ∃ others, (first :: (others ++ [second])).Perm
      (items.filter fun item => decide (score item = score first)) := by
    have member : first ∈ items.filter fun item => decide (score item = score first) :=
      mem_filter.mpr ⟨isFirst, decide_eq_true rfl⟩
    have member' : second ∈
        (items.filter fun item => decide (score item = score first)).erase first :=
      (mem_erase_of_ne differs.symm).mpr (mem_filter.mpr ⟨isSecond, decide_eq_true same.symm⟩)
    refine ⟨((items.filter fun item => decide (score item = score first)).erase
      first).erase second, ?_⟩
    refine List.Perm.trans (List.Perm.cons first ?_) (perm_cons_erase member).symm
    exact (perm_append_singleton ..).trans (perm_cons_erase member').symm
  obtain ⟨others, isTies⟩ := ties
  have perm : (high ++ (first :: (others ++ [second]) ++ low)).Perm items := by
    refine (List.Perm.append isHigh.perm (List.Perm.append isTies isLow.perm)).trans ?_
    have rest : (items.filter fun item => !decide (score first < score item)).Perm
        ((items.filter fun item => decide (score item = score first)) ++
          items.filter fun item => decide (score item < score first)) := by
      have cut := filter_append_perm (fun item => decide (score item = score first))
        (items.filter fun item => !decide (score first < score item))
      rw [filter_filter, filter_filter] at cut
      refine cut.symm.trans (List.Perm.of_eq ?_)
      congr 1
      · refine filter_congr fun item _ => ?_
        rw [Bool.eq_iff_iff, Bool.and_eq_true, decide_eq_true_iff, Bool.not_eq_true',
          decide_eq_false_iff_not]
        exact ⟨fun both => both.1, fun tie => ⟨tie, not_lt_of_ge (le_of_eq tie)⟩⟩
      · refine filter_congr fun item _ => ?_
        rw [Bool.eq_iff_iff, Bool.and_eq_true, decide_eq_true_iff, Bool.not_eq_true',
          Bool.not_eq_true', decide_eq_false_iff_not, decide_eq_false_iff_not, not_lt]
        exact ⟨fun both => lt_of_le_of_ne both.2 both.1,
          fun isLess => ⟨ne_of_lt isLess, le_of_lt isLess⟩⟩
    exact (List.Perm.append_left _ rest.symm).trans (filter_append_perm _ _)
  have highScore : ∀ item ∈ high, score first < score item := fun item member =>
    of_decide_eq_true (mem_filter.mp (isHigh.perm.mem_iff.mp member)).2
  have lowScore : ∀ item ∈ low, score item < score first := fun item member =>
    of_decide_eq_true (mem_filter.mp (isLow.perm.mem_iff.mp member)).2
  have tieScore : ∀ item ∈ first :: (others ++ [second]), score item = score first :=
    fun item member =>
      of_decide_eq_true (mem_filter.mp (isTies.mem_iff.mp member)).2
  have ranked : Ranked score items (high ++ (first :: (others ++ [second]) ++ low)) := by
    refine ⟨perm, pairwise_append.mpr ⟨isHigh.falls, pairwise_append.mpr
      ⟨pairwise_of_forall_mem_list fun item member item' member' => ?_, isLow.falls,
        fun item member item' member' => ?_⟩, fun item member item' member' => ?_⟩⟩
    · exact le_of_eq ((tieScore item' member').trans (tieScore item member).symm)
    · exact le_of_lt ((lowScore item' member').trans_eq (tieScore item member).symm)
    · refine le_trans ?_ (le_of_lt (highScore item member))
      rcases mem_append.mp member' with tie | isLess
      · exact le_of_eq (tieScore item' tie)
      · exact le_of_lt (lowScore item' isLess)
  have highSize : high.length = better score items (score first) := isHigh.perm.length_eq
  have tieSize : high.length + (others.length + 2) = atLeast score items (score first) := by
    rw [atLeast, ← (ranked.perm.filter _).length_eq, filter_append,
      filter_append, filter_eq_self.mpr, filter_eq_self.mpr,
      filter_eq_nil_iff.mpr]
    · simp only [length_append, length_cons, length_nil]
    · intro item member
      rw [decide_eq_true_iff, not_le]
      exact lowScore item member
    · intro item member
      rw [decide_eq_true_iff]
      exact le_of_eq (tieScore item member).symm
    · intro item member
      rw [decide_eq_true_iff]
      exact le_of_lt (highScore item member)
  refine ⟨_, ranked, ?_, fun selected => ?_⟩
  · rw [take_append, mem_append]
    right
    obtain ⟨more, isMore⟩ : ∃ more, size - high.length = more + 1 :=
      ⟨size - high.length - 1, by omega⟩
    rw [isMore, cons_append, take_succ_cons]
    exact mem_cons_self
  · have front : high ++ (first :: (others ++ [second]) ++ low) =
        (high ++ first :: others) ++ (second :: low) := by
      simp only [append_assoc, cons_append, nil_append]
    have nodupSorted := perm.nodup_iff.mpr nodup
    rw [front] at selected nodupSorted
    have few : size ≤ (high ++ first :: others).length := by
      rw [length_append, length_cons]
      omega
    rw [take_append_of_le_length few] at selected
    exact (nodup_append.mp nodupSorted).2.2 second (mem_of_mem_take selected)
      second mem_cons_self rfl

/-- The items with falling scores have only one list of scores. -/
theorem Ranked.map_score_eq {sorted' : List α} (ranked : Ranked score items sorted)
    (ranked' : Ranked score items sorted') : sorted.map score = sorted'.map score := by
  refine List.Perm.eq_of_pairwise (fun first second _ _ le le' => le_antisymm le' le) ?_ ?_
    ((ranked.perm.trans ranked'.perm.symm).map score)
  · exact pairwise_map.mpr ranked.falls
  · exact pairwise_map.mpr ranked'.falls

variable (score) in
/-- A part of the items which is not worse than the rest. -/
def Selected (items selected : List α) : Prop :=
  ∃ left, (selected ++ left).Perm items ∧
    ∀ first ∈ selected, ∀ second ∈ left, score second ≤ score first

variable {selected selected' : List α}

section

variable (isSelected : Selected score items selected)

include isSelected

theorem Selected.exists_ranked :
    ∃ sorted, Ranked score items sorted ∧ (sorted.take selected.length).Perm selected := by
  obtain ⟨left, perm, le⟩ := isSelected
  obtain ⟨high, isHigh⟩ := TopSelection.exists_ranked score selected
  obtain ⟨low, isLow⟩ := TopSelection.exists_ranked score left
  refine ⟨high ++ low, ⟨(isHigh.perm.append isLow.perm).trans perm, pairwise_append.mpr
    ⟨isHigh.falls, isLow.falls, fun first isFirst second isSecond => ?_⟩⟩, ?_⟩
  · exact le first (isHigh.perm.mem_iff.mp isFirst) second (isLow.perm.mem_iff.mp isSecond)
  · rw [← isHigh.perm.length_eq, take_left]
    exact isHigh.perm

theorem Selected.perm_scores (isSelected' : Selected score items selected') (same : selected.length = selected'.length) :
    (selected.map score).Perm (selected'.map score) := by
  obtain ⟨sorted, ranked, taken⟩ := isSelected.exists_ranked
  obtain ⟨sorted', ranked', taken'⟩ := isSelected'.exists_ranked
  refine ((taken.map score).symm.trans (List.Perm.of_eq ?_)).trans (taken'.map score)
  rw [map_take, map_take, ranked.map_score_eq ranked', same]

/-- Two selections of one size hold the same items over their least score. -/
theorem Selected.mem_iff (isSelected' : Selected score items selected') (same : selected.length = selected'.length)
    {least item : α} (isLeast : least ∈ selected) (less : score least < score item) :
    item ∈ selected ↔ item ∈ selected' := by
  have scores := isSelected.perm_scores isSelected' same
  obtain ⟨left, perm, le⟩ := isSelected
  obtain ⟨left', perm', le'⟩ := isSelected'
  constructor
  · intro member
    rcases mem_append.mp (perm'.mem_iff.mpr (perm.mem_iff.mp
      (mem_append_left left member))) with member' | isLeft
    · exact member'
    · obtain ⟨other, isOther, isScore⟩ :=
        mem_map.mp (scores.mem_iff.mp (mem_map_of_mem isLeast))
      have atLeast := le' other isOther item isLeft
      rw [isScore] at atLeast
      exact absurd less (not_lt.mpr atLeast)
  · intro member
    rcases mem_append.mp (perm.mem_iff.mpr (perm'.mem_iff.mp
      (mem_append_left left' member))) with member' | isLeft
    · exact member'
    · exact absurd less (not_lt.mpr (le least isLeast item isLeft))

end

end Mnn.Foundation.TopSelection
