import Mnn.Llm.CompressorBudget

/-!
# The result of a compression

All four phases choose sentences by `take`, so that the text of a result is
made of chosen sentences and never longer than the budget.  The first phase
chooses all sentences at the ends of the prompt.
-/

namespace Mnn.Llm.TokenCompression

open Mnn.Foundation.Cutting Mnn.Foundation.GapJoins
open List
open Option

section Units

variable {D : Type} {source : Tokens} {spans : List Span} {collected : Collected D}

theorem Collected.Sound.length_units (sound : collected.Sound spans) :
    collected.units.length = spans.length := by
  rw [← length_map TextUnit.cost, sound.costs, length_map]

theorem map_unitAt (units : List TextUnit) :
    ((List.range units.length).map fun i => (unitAt units i).cost) =
      units.map TextUnit.cost := by
  apply ext_getElem?
  intro i
  rw [getElem?_map, getElem?_map]
  by_cases inRange : i < units.length
  · rw [getElem?_range inRange, getElem?_eq_getElem inRange]
    show some (units.getD i {}).cost = _
    rw [getD_eq_getElem?_getD, getElem?_eq_getElem inRange]
    rfl
  · rw [getElem?_eq_none (not_lt.mp inRange), getElem?_eq_none (by
        rw [length_range]
        exact not_lt.mp inRange)]
    rfl

theorem Collected.Sound.isCost (sound : collected.Sound spans)
    (partition : PartitionFrom 0 spans source.length) (i : Nat) :
    (unitAt collected.units i).cost = (Compressor.spanTokens source spans i).length := by
  have same := congrArg (fun list => list[i]?) sound.costs
  simp only [getElem?_map] at same
  unfold unitAt Compressor.spanTokens
  rw [getD_eq_getElem?_getD, getD_eq_getElem?_getD]
  cases isAt : spans[i]? with
  | none =>
    rw [isAt] at same
    rw [map_eq_none_iff.mp same]
    rfl
  | some span =>
    rw [isAt] at same
    rcases map_eq_some_iff.mp same with ⟨unit, isUnit, isCost⟩
    have inside := (partition.sum_around isAt).2.2
    rw [isUnit]
    show unit.cost = (slice source span.1 span.2).length
    have isCost : unit.cost = span.2 - span.1 := isCost
    rw [isCost, slice, length_take, length_drop]
    omega

end Units

section Phases

variable {D : Type} {ops : DoubleOps D} {compressor : Compressor}
  {units : List TextUnit} {options : Options} {sourceSize : Nat} {groups : List (Group D)}

theorem shareLoop_spec {state : Chosen}
    (areRanks : ∀ group ∈ groups, RanksOf units.length group.steps) :
    Reaches units compressor.mGap.length state
        (compressor.shareLoop ops options sourceSize units groups state).2 ∧
      ∀ steps ∈ (compressor.shareLoop ops options sourceSize units groups state).1,
        RanksOf units.length steps := by
  induction groups generalizing state with
  | nil =>
    refine ⟨Reaches.refl _, ?_⟩
    intro steps isIn
    nomatch isIn
  | cons group groups ih =>
    have known := @floorLoop_spec state D units 0 compressor.mGap.length options.maxTokens
        (Compressor.groupFloor ops options sourceSize group.cost) group.steps
        (areRanks group mem_cons_self)
    have rest := @ih (floorLoop units compressor.mGap.length
          (Compressor.groupFloor ops options sourceSize group.cost)
          options.maxTokens group.steps 0 state).2
        fun other isIn => areRanks other (mem_cons_of_mem _ isIn)
    refine ⟨known.1.trans rest.1, ?_⟩
    intro steps isIn
    rcases mem_cons.mp isIn with rfl | isIn
    · exact known.2
    · exact rest.2 steps isIn

theorem leftQueue_ranks {size : Nat} {left : List (List (Rank D))}
    (areLeft : ∀ steps ∈ left, RanksOf size steps) :
    RanksOf size (Compressor.leftQueue left) := by
  intro rank isIn
  rcases mem_filterMap.mp isIn with ⟨⟨steps, g⟩, isSteps, isRank⟩
  rcases map_eq_some_iff.mp isRank with ⟨step, isHead, rfl⟩
  have isIn : steps ∈ left := (mem_zipIdx_iff_getElem?.mp isSteps) |>
    mem_of_getElem?
  exact areLeft steps isIn step (mem_of_head? isHead)

/-- The phases choose by `take`, and they choose what is at the ends. -/
theorem choose_spec {fuel : Nat} {globalDf : List Nat} {state : Chosen} {reserveUnits : Nat}
    (areRanks : ∀ group ∈ groups, RanksOf units.length group.steps)
    (isChosen :
      compressor.choose ops fuel options sourceSize units globalDf groups =
        some (some (state, reserveUnits))) :
    Reaches units compressor.mGap.length {} state ∧
      ∀ before i behind, List.range units.length = before ++ i :: behind →
        ((before.map fun i => (unitAt units i).cost).sum < options.boundaryTokens ∨
            (behind.map fun i => (unitAt units i).cost).sum < options.boundaryTokens) →
          i ∈ state.chosen := by
  unfold Compressor.choose at isChosen
  simp only at isChosen
  split at isChosen
  · nomatch isChosen
  · rename_i bounded isBounded
    rcases map_eq_some_iff.mp isChosen with ⟨last, isLast, isPair⟩
    obtain ⟨rfl, -⟩ := Prod.mk.inj (some.inj isPair)
    rcases bind_eq_some_iff.mp isBounded with ⟨front, isFront, isBack⟩
    rcases boundaryLoop_spec (fun i isIn => mem_range.mp isIn) isFront with
      ⟨reachesFront, coversFront⟩
    rcases boundaryLoop_spec (fun i isIn => mem_range.mp (mem_reverse.mp isIn)) isBack
      with ⟨reachesBack, coversBack⟩
    have reserved := @reserve_reaches bounded units compressor.mGap.length (min (options.maxTokens : Int)
          (bounded.used + (options.maxTokens / 5 : Nat)))
        (rareIndices ops units globalDf compressor.mGap.length)
        fun i isIn => rareIndices_lt isIn
    obtain ⟨rest, isRest⟩ :
        ∃ rest, (reserve units compressor.mGap.length (min (options.maxTokens : Int)
                (bounded.used + (options.maxTokens / 5 : Nat)))
              bounded (rareIndices ops units globalDf compressor.mGap.length)).1 =
            rest :=
      ⟨_, rfl⟩
    rw [isRest] at isLast reserved
    rcases @shareLoop_spec D ops compressor units options sourceSize groups rest areRanks with
      ⟨shared, areLeft⟩
    have queued := queueLoop_reaches (leftQueue_ranks areLeft) areLeft isLast
    have behindBack := (reserved.trans shared).trans queued
    refine ⟨(reachesFront.trans reachesBack).trans behindBack, ?_⟩
    intro before i behind isRange isEnd
    apply behindBack.subset
    rcases isEnd with isFirst | isLast
    · exact reachesBack.subset
          (coversFront before i behind isRange ((Nat.zero_add _).symm ▸ isFirst))
    · refine coversBack behind.reverse i before.reverse ?_ ?_
      · rw [isRange]
        simp
      · rw [Nat.zero_add, map_reverse, sum_reverse]
        exact isLast

end Phases

/-! ## The result -/

/-- What is kept of the source. -/
structure Kept
    (source : Tokens) (gap : Tokens) (options : Options) (result : Result) :
    Prop where
  budget : result.tokens.length ≤ options.maxTokens
  partition : PartitionFrom 0 result.spans source.length
  ascending : result.selected.Pairwise (· < ·)
  inRange : ∀ i ∈ result.selected, i < result.spans.length
  isText :
    result.tokens = joinRuns isNext gap (Compressor.spanTokens source result.spans) result.selected
  atEnds :
    ∀ i span, result.spans[i]? = some span → span.1 < options.boundaryTokens ∨
          source.length < span.2 + options.boundaryTokens →
        i ∈ result.selected

theorem kept_whole {source gap : Tokens} {options : Options}
    (short : source.length ≤ options.maxTokens) :
    Kept source gap options
      { tokens := source
        spans := if source.isEmpty then [] else [(0, source.length)]
        selected := if source.isEmpty then [] else [0] } := by
  cases source with
  | nil =>
    refine ⟨short, rfl, List.Pairwise.nil, ?_, rfl, ?_⟩
    · intro i isIn
      nomatch isIn
    · intro i span isAt
      nomatch isAt
  | cons id source =>
    refine ⟨short, ⟨rfl, Nat.succ_pos _, rfl⟩, pairwise_singleton _ _, ?_, ?_, ?_⟩
    · intro i isIn
      rw [mem_singleton.mp isIn]
      exact one_pos
    · rw [← joinFrom_eq_joinRuns]
      show id :: source = [] ++ slice (id :: source) 0 (id :: source).length ++ []
      rw [slice_zero_length, append_nil, nil_append]
    · intro i span isAt _
      cases i with
      | zero => exact mem_singleton_self 0
      | succ i => nomatch isAt

theorem mem_of_mapM {α β : Type} {change : α → Option β} {items : List α} {results : List β}
    (areResults : items.mapM change = some results) {result : β}
    (isIn : result ∈ results) : ∃ item ∈ items, change item = some result := by
  induction items generalizing results with
  | nil =>
    rw [mapM_nil] at areResults
    cases areResults
    nomatch isIn
  | cons item items ih =>
    rw [mapM_cons] at areResults
    rcases bind_eq_some_iff.mp areResults with
      ⟨first, isFirst, areResults⟩
    rcases bind_eq_some_iff.mp areResults with
      ⟨others, areOthers, isResults⟩
    cases isResults
    rcases mem_cons.mp isIn with rfl | isIn
    · exact ⟨item, mem_cons_self, isFirst⟩
    · rcases ih areOthers isIn with ⟨other, isOther, isResult⟩
      exact ⟨other, mem_cons_of_mem _ isOther, isResult⟩

theorem range_around {size i : Nat} (inRange : i < size) :
    List.range size = (List.range size).take i ++ i :: (List.range size).drop (i + 1) := by
  have isDrop : (List.range size).drop i = i :: (List.range size).drop (i + 1) := by
    rw [drop_eq_getElem_cons (by rw [length_range]; exact inRange), getElem_range]
  rw [← isDrop, take_append_drop]

theorem compress_long {D : Type} {ops : DoubleOps D} {compressor : Compressor} {fuel : Nat}
    {source : Tokens} {options : Options} {result : Result}
    (isLong : options.maxTokens < source.length)
    (isResult : compressor.compress ops fuel source options = some (some result)) :
    Kept source compressor.mGap options result ∧ ∃ calls,
        Calls (@collect D source options result.spans).units calls ∧
          (Chosen.takes (@collect D source options result.spans).units
                compressor.mGap.length {} calls).chosen =
            result.selected := by
  unfold Compressor.compress at isResult
  split at isResult
  · nomatch isResult
  · rw [if_neg (not_le.mpr isLong)] at isResult
    rcases bind_eq_some_iff.mp isResult with
      ⟨groups, areGroups, isResult⟩
    rcases map_eq_some_iff.mp isResult with ⟨outcome, isChosen, isResult⟩
    rcases bind_eq_some_iff.mp isResult with
      ⟨⟨state, reserveUnits⟩, rfl, isResult⟩
    simp only [bind_some] at isResult
    split at isResult
    · rename_i isShort
      cases isResult
      have partition := split_partitions compressor source
      have sound := @collect_sound D source options (compressor.split source)
      have areRanks : ∀ group ∈ groups, RanksOf
              (@collect D source options (compressor.split source)).units.length
              group.steps := by
        intro group isGroup
        rcases mem_of_mapM areGroups isGroup with ⟨old, isOld, isPrepared⟩
        rw [sound.length_units]
        exact prepare_ranks (sound.members old isOld) isPrepared
      rcases choose_spec areRanks isChosen with ⟨⟨calls, areCalls, isState⟩, ends⟩
      have soundState : state.Sound _ _ _ :=
        isState ▸ Chosen.Sound.start.takes (sound.isCost partition) areCalls
      refine ⟨⟨isShort.2, partition, soundState.ascending, ?_, ?_, ?_⟩, ?_⟩
      · intro i isIn
        rw [← sound.length_units]
        exact soundState.inRange i isIn
      · exact joinFrom_eq_joinRuns _
      · intro i span isAt isEnd
        have inRange : i < (compressor.split source).length := (List.getElem?_eq_some_iff.mp isAt).1
        rcases partition.sum_around isAt with ⟨before, behind, -⟩
        rw [← sound.length_units] at inRange
        refine ends _ i _ (range_around inRange) ?_
        rw [map_take, map_drop, map_unitAt, sound.costs, ← map_take, ← map_drop]
        omega
      · exact ⟨calls, areCalls, by rw [isState]⟩
    · nomatch isResult

/--
A compression that succeeds stays within its budget and keeps what it promises;
and whatever was taken so far, its cost is the length of its text.
-/
theorem compress_keeps {D : Type} (ops : DoubleOps D) (compressor : Compressor) (fuel : Nat)
    (source : Tokens) (options : Options) (result : Result)
    (isResult : compressor.compress ops fuel source options = some (some result)) :
    Kept source compressor.mGap options result ∧
      (∀ calls, Calls (@collect D source options result.spans).units calls →
        (Chosen.takes (@collect D source options result.spans).units
              compressor.mGap.length {} calls).used =
          textLength compressor.mGap (Compressor.spanTokens source result.spans)
            (Chosen.takes (@collect D source options result.spans).units
              compressor.mGap.length {} calls).chosen) ∧
      (options.maxTokens < source.length → ∃ calls,
          Calls (@collect D source options result.spans).units calls ∧
            (Chosen.takes (@collect D source options result.spans).units
                  compressor.mGap.length {} calls).chosen =
              result.selected) := by
  have kept : Kept source compressor.mGap options result := by
    by_cases isLong : options.maxTokens < source.length
    · exact (compress_long isLong isResult).1
    · have short := not_lt.mp isLong
      unfold Compressor.compress at isResult
      split at isResult
      · nomatch isResult
      · cases isResult
        exact kept_whole short
  refine ⟨kept, ?_, fun isLong => (compress_long isLong isResult).2⟩
  intro calls areCalls
  have sound := @collect_sound D source options result.spans
  exact (Chosen.Sound.start.takes (sound.isCost kept.partition) areCalls).cost

/-- Natural numbers for `double`; what is more frequent is worth less. -/
def natOps : DoubleOps Nat where
  ofNat count := count
  quarter := 1
  add := (· + ·)
  mul := (· * ·)
  div first second := first / second
  log := id
  sqrt := id
  lt first second := decide (first < second)
  le first second := decide (first ≤ second)
  eq first second := decide (first = second)
  toNat := id

/-- Full stops are zero, and the gap is a token of its own. -/
def fullStops : Compressor where
  delimiters := [[0]]
  mGap := [99]

/-- Seven sentences; the second and the sixth one are left of those inside. -/
theorem compress_keeps_sample : Kept [1, 0, 2, 3, 0, 5, 0, 6, 0, 7, 0, 8, 0, 4, 0] [99]
      { maxTokens := 14, boundaryTokens := 2, blockTokens := 100
        blocksPerGroup := 1 }
      { tokens := [1, 0, 2, 3, 0, 99, 8, 0, 4, 0]
        spans := [(0, 2), (2, 5), (5, 7), (7, 9), (9, 11), (11, 13), (13, 15)]
        selected := [0, 1, 5, 6]
        reserveUnits := 1 } :=
  (compress_keeps natOps fullStops 100 _ _ _ (by decide +kernel)).1

end Mnn.Llm.TokenCompression
