import Mnn.Llm.TokenCompressor

/-!
# What is kept of a compressed prompt

Whatever the ranks are, sentences are only chosen by `take`.  It keeps the
chosen ones in order, and what they cost is the length of their text; all else
follows from the sentences being a partition of the prompt.
-/

variable {state last : Chosen} {spans : List Span} {units : List TextUnit} {list : List Nat}
  {D : Type}

namespace Mnn.Llm.TokenCompression

open Mnn.Foundation.Cutting Mnn.Foundation.GapJoins
open List

/-! ## Sentences -/

/-- Spans that are not empty, one behind the other. -/
def PartitionFrom : Nat → List Span → Nat → Prop
  | start, [], stop => start = stop
  | start, span :: rest, stop =>
    span.1 = start ∧ start < span.2 ∧ PartitionFrom span.2 rest stop

variable (compressor : Compressor)

theorem delimiterLength_le (source : Tokens) (i : Nat) :
    compressor.delimiterLength source i ≤ source.length - i := by
  unfold Compressor.delimiterLength
  split
  · exact Nat.zero_le _
  · refine List.foldlRecOn (motive := fun length => length ≤ source.length - i) _ _
        (Nat.zero_le _) ?_
    intro length bounded ids _
    split
    · rename_i longer
      exact longer.2.1
    · exact bounded

theorem partitionFrom_lastSpan {source : Tokens} {start : Nat} (inSource : start ≤ source.length) :
    PartitionFrom start (Compressor.lastSpan source start) source.length := by
  unfold Compressor.lastSpan
  split
  · rename_i more
    exact ⟨rfl, more, rfl⟩
  · rename_i noMore
    exact le_antisymm inSource (not_lt.mp noMore)

theorem splitFrom_partitions {source : Tokens} {steps start i : Nat}
    (before : start ≤ i) (inSource : i ≤ source.length) (enough : source.length ≤ i + steps) :
    PartitionFrom start (compressor.splitFrom source steps start i) source.length := by
  induction steps generalizing start i with
  | zero => exact partitionFrom_lastSpan (le_trans before inSource)
  | succ steps ih =>
    rw [Compressor.splitFrom]
    split
    · have fits := delimiterLength_le compressor source i
      simp only
      split
      · rename_i more some
        refine ⟨rfl, by omega, ?_⟩
        exact ih (le_refl _) (by omega) (by omega)
      · exact ih (by omega) (by omega) (by omega)
    · exact partitionFrom_lastSpan (le_trans before inSource)

theorem split_partitions (source : Tokens) :
    PartitionFrom 0 (compressor.split source) source.length :=
  splitFrom_partitions compressor (Nat.le_refl 0) (Nat.zero_le _)
    (Nat.le_of_eq (Nat.zero_add _).symm)

namespace PartitionFrom

theorem le {start stop : Nat} (partition : PartitionFrom start spans stop) : start ≤ stop := by
  induction spans generalizing start with
  | nil => exact le_of_eq partition
  | cons span spans ih =>
    exact le_trans (le_of_lt partition.2.1) (ih partition.2.2)

theorem sum_spans {start stop : Nat} (partition : PartitionFrom start spans stop) :
    start + (spans.map fun span => span.2 - span.1).sum = stop := by
  induction spans generalizing start with
  | nil => exact partition
  | cons span spans ih =>
    rcases partition with ⟨rfl, more, partition⟩
    have rest := ih partition
    rw [map_cons, sum_cons]
    omega

theorem sum_around {start stop i : Nat} {span : Span}
    (partition : PartitionFrom start spans stop) (isAt : spans[i]? = some span) :
    start + ((spans.take i).map fun span => span.2 - span.1).sum = span.1 ∧
      span.2 + ((spans.drop (i + 1)).map fun span => span.2 - span.1).sum = stop ∧
      span.2 ≤ stop := by
  induction spans generalizing start i with
  | nil => nomatch isAt
  | cons first spans ih =>
    rcases partition with ⟨rfl, more, partition⟩
    cases i with
    | zero =>
      obtain rfl : first = span := Option.some.inj isAt
      exact ⟨rfl, partition.sum_spans, partition.le⟩
    | succ i =>
      rcases ih partition isAt with ⟨before, behind, inside⟩
      refine ⟨?_, behind, inside⟩
      rw [take_succ_cons, map_cons, sum_cons]
      omega

end PartitionFrom

/-! ## Sentences and groups -/

/-- The sentences have the lengths of their spans; groups have sentences. -/
structure Collected.Sound {D : Type} (collected : Collected D)
    (spans : List Span) : Prop where
  costs : collected.units.map TextUnit.cost = spans.map fun span => span.2 - span.1
  members : ∀ group ∈ collected.groups, ∀ i ∈ group.members, i < spans.length

theorem mem_modify {α : Type} {list : List α} {place : Nat} {change : α → α} {item : α}
    (isIn : item ∈ list.modify place change) :
    ∃ old ∈ list, item = old ∨ item = change old := by
  rcases mem_iff_getElem?.mp isIn with ⟨i, isAt⟩
  rw [getElem?_modify] at isAt
  rcases Option.map_eq_some_iff.mp isAt with ⟨old, isOld, isItem⟩
  refine ⟨old, mem_of_getElem? isOld, ?_⟩
  split at isItem
  · exact Or.inr isItem.symm
  · exact Or.inl isItem.symm

theorem Collected.Sound.addUnit {collected : Collected D}
    (sound : collected.Sound spans) (source : Tokens) (options : Options) (span : Span) :
    (collected.addUnit source options span).Sound (spans ++ [span]) := by
  have hasLength : collected.units.length = spans.length := by
    rw [← length_map TextUnit.cost, sound.costs, length_map]
  constructor
  · show (collected.units ++ [_]).map TextUnit.cost = _
    rw [map_append, map_append, sound.costs]
    rfl
  · intro group isGroup i isMember
    rw [length_append]
    rcases mem_modify isGroup with ⟨old, isOld, isSame⟩
    have isKnown : ∀ i ∈ old.members, i < spans.length := by
      rcases mem_append.mp isOld with isOld | isNew
      · exact sound.members old isOld
      · rw [eq_of_mem_replicate isNew]
        intro i isIn
        nomatch isIn
    rcases isSame with rfl | rfl
    · exact Nat.lt_succ_of_lt (isKnown i isMember)
    · rcases mem_append.mp isMember with isMember | isLast
      · exact Nat.lt_succ_of_lt (isKnown i isMember)
      · rw [mem_singleton.mp isLast, hasLength]
        exact Nat.lt_succ_self _

theorem collect_sound (source : Tokens) (options : Options) (spans : List Span) :
    (@collect D source options spans).Sound spans := by
  have sound (done left : List Span) (collected : Collected D) (isSound : collected.Sound done) :
      (left.foldl (fun collected span => collected.addUnit source options span) collected).Sound
        (done ++ left) := by
    induction left generalizing done collected with
    | nil =>
      rw [append_nil]
      exact isSound
    | cons span left ih =>
      rw [append_cons]
      exact ih _ _ (isSound.addUnit source options span)
  refine sound [] spans {} ⟨rfl, ?_⟩
  intro group isGroup
  nomatch isGroup

/-! ## Ranks -/

section Ranks

variable {D : Type} {ops : DoubleOps D}

theorem popTop_eq_none {queue : List (Rank D)} (isNone : popTop ops queue = none) : queue = [] := by
  cases queue with
  | nil => rfl
  | cons first queue =>
    rw [popTop] at isNone
    split at isNone
    · nomatch isNone
    · split at isNone <;> nomatch isNone

section

variable {queue others : List (Rank D)} {top : Rank D}
  (isPopped : popTop ops queue = some (top, others))

include isPopped

theorem popTop_perm :
    queue.Perm (top :: others) := by
  induction queue generalizing top others with
  | nil => nomatch isPopped
  | cons first queue ih =>
    rw [popTop] at isPopped
    cases isRest : popTop ops queue with
    | none =>
      obtain rfl := popTop_eq_none isRest
      rw [isRest] at isPopped
      cases isPopped
      exact List.Perm.refl _
    | some popped =>
      rcases popped with ⟨best, left⟩
      rw [isRest] at isPopped
      have known := ih isRest
      simp only at isPopped
      split at isPopped
      · cases isPopped
        exact (known.cons first).trans (List.Perm.swap ..)
      · cases isPopped
        exact known.cons first

theorem popTop_mem :
    ∀ rank ∈ top :: others, rank ∈ queue :=
  fun _ isIn => (popTop_perm isPopped).mem_iff.mpr isIn

end

/-- Ranks of sentences. -/
def RanksOf (size : Nat) (ranks : List (Rank D)) : Prop := ∀ rank ∈ ranks, rank.index < size

variable {size fuel : Nat}

theorem RanksOf.append {first second : List (Rank D)} (isFirst : RanksOf size first)
    (isSecond : RanksOf size second) : RanksOf size (first ++ second) := by
  intro rank isIn
  rcases mem_append.mp isIn with isIn | isIn
  · exact isFirst rank isIn
  · exact isSecond rank isIn

theorem RanksOf.singleton {rank : Rank D} (inRange : rank.index < size) :
    RanksOf size [rank] := by
  intro other isIn
  rw [mem_singleton.mp isIn]
  exact inRange

theorem prepareLoop_ranks {bigrams : List Bool} {members : List Nat}
    {cost spent : Nat} {covered : List Nat}
    {queue steps result : List (Rank D)} (areQueued : RanksOf size queue)
    (areSteps : RanksOf size steps)
    (isPrepared : prepareLoop ops units bigrams members cost fuel queue spent covered steps =
        some result) :
    RanksOf size result := by
  induction fuel generalizing queue spent covered steps with
  | zero => nomatch isPrepared
  | succ fuel ih =>
    rw [prepareLoop] at isPrepared
    cases isPopped : popTop ops queue with
    | none =>
      rw [isPopped] at isPrepared
      cases isPrepared
      exact areSteps
    | some popped =>
      rcases popped with ⟨next, others⟩
      rw [isPopped] at isPrepared
      have known := popTop_mem isPopped
      have isNext := areQueued next (known next mem_cons_self)
      have areOthers : RanksOf size others := fun rank isIn =>
        areQueued rank (known rank (mem_cons_of_mem _ isIn))
      simp only at isPrepared
      split at isPrepared
      · exact ih areOthers areSteps isPrepared
      · split at isPrepared
        · exact ih areOthers areSteps isPrepared
        · split at isPrepared
          · refine ih (areOthers.append ?_) areSteps isPrepared
            exact RanksOf.singleton isNext
          · exact ih areOthers (areSteps.append (RanksOf.singleton isNext)) isPrepared

theorem prepare_ranks {bigrams : List Bool}
    {group prepared : Group D} (members : ∀ i ∈ group.members, i < size)
    (isPrepared : prepare ops fuel units bigrams group = some prepared) :
    RanksOf size prepared.steps := by
  rcases Option.map_eq_some_iff.mp isPrepared with ⟨steps, isSteps, rfl⟩
  refine prepareLoop_ranks ?_ ?_ isSteps
  · intro rank isIn
    rcases mem_filterMap.mp isIn with ⟨i, isMember, isRank⟩
    simp only at isRank
    split at isRank
    · cases isRank
      exact members i isMember
    · nomatch isRank
  · intro rank isIn
    nomatch isIn

theorem rareIndices_lt {globalDf : List Nat} {gapSize i : Nat}
    (isRare : i ∈ rareIndices ops units globalDf gapSize) : i < units.length := by
  rcases mem_map.mp isRare with ⟨rank, isIn, rfl⟩
  rw [mem_insertionSort, mem_map] at isIn
  rcases isIn with ⟨i, isIn, rfl⟩
  exact mem_range.mp isIn

end Ranks

/-! ## Choosing sentences -/

section Ascending

theorem lt_of_mem_takeWhile {i other : Nat}
    (isIn : other ∈ list.takeWhile (· < i)) : other < i := by
  have less := mem_takeWhile_imp isIn
  exact of_decide_eq_true less

theorem lt_of_mem_dropWhile (ascending : list.Pairwise (· < ·)) {i other : Nat}
    (fresh : i ∉ list) (isIn : other ∈ list.dropWhile (· < i)) : i < other := by
  induction list with
  | nil => nomatch isIn
  | cons first list ih =>
    rcases pairwise_cons.mp ascending with ⟨isLeast, ascending⟩
    rw [mem_cons, not_or] at fresh
    rcases fresh with ⟨notFirst, fresh⟩
    rw [dropWhile_cons] at isIn
    split at isIn
    · exact ih ascending fresh isIn
    · rename_i notLess
      have notLess : ¬first < i := by simpa using notLess
      rcases mem_cons.mp isIn with rfl | isIn
      · omega
      · have := isLeast other isIn
        omega

theorem pairwise_insert (ascending : list.Pairwise (· < ·)) {i : Nat} (fresh : i ∉ list) :
    (list.takeWhile (· < i) ++ i :: list.dropWhile (· < i)).Pairwise (· < ·) := by
  rw [pairwise_append, pairwise_cons]
  refine ⟨ascending.sublist (takeWhile_sublist _),
      ⟨fun other => lt_of_mem_dropWhile ascending fresh, ascending.sublist (dropWhile_sublist _)⟩,
      ?_⟩
  intro first isFirst second isSecond
  have less := lt_of_mem_takeWhile isFirst
  rcases mem_cons.mp isSecond with rfl | isSecond
  · exact less
  · exact lt_trans less (lt_of_mem_dropWhile ascending fresh isSecond)

end Ascending

section Choose

variable {units : List TextUnit} {gap : Tokens} {piece : Nat → Tokens}

/-- The length of the text of the chosen sentences. -/
def textLength (gap : Tokens) (piece : Nat → Tokens) (chosen : List Nat) : Nat :=
  (joinRuns isNext gap piece chosen).length

/-- The chosen sentences are in order, and cost the length of their text. -/
structure Chosen.Sound
    (units : List TextUnit) (gap : Tokens) (piece : Nat → Tokens)
    (state : Chosen) : Prop where
  ascending : state.chosen.Pairwise (· < ·)
  inRange : ∀ i ∈ state.chosen, i < units.length
  cost : state.used = textLength gap piece state.chosen

theorem Chosen.Sound.start : Chosen.Sound units gap piece {} := by
  constructor
  · exact List.Pairwise.nil
  · intro i isIn
    nomatch isIn
  · rfl

/-- What is taken was chosen already, or it is put in its place. -/
theorem Chosen.take_cases (state : Chosen) (gapSize i : Nat) (limit : Int) :
    (i ∈ state.chosen ∧ state.take units gapSize i limit = (true, state)) ∨ (i ∉ state.chosen ∧
        (state.take units gapSize i limit = (false, state) ∨ state.take units gapSize i limit =
            (true,
              { chosen :=
                  state.chosen.takeWhile (· < i) ++
                    i :: state.chosen.dropWhile (· < i)
                used := state.used + state.extra units gapSize i }))) := by
  unfold Chosen.take
  by_cases isChosen : state.chosen.contains i = true
  · left
    rw [if_pos isChosen]
    exact ⟨contains_iff_mem.mp isChosen, rfl⟩
  · right
    rw [if_neg isChosen]
    refine ⟨fun isIn => isChosen (contains_iff_mem.mpr isIn), ?_⟩
    simp only
    split
    · exact Or.inl rfl
    · exact Or.inr rfl

theorem Chosen.extra_eq (isCost : ∀ i, (unitAt units i).cost = (piece i).length) (state : Chosen)
    (i : Nat) :
    state.extra units gap.length i = costBetween gap piece (state.chosen.takeWhile (· < i)).getLast?
        (state.chosen.dropWhile (· < i)).head? i := by
  have isEmpty :
      ((state.chosen.takeWhile (· < i)).getLast? = none ∧
          (state.chosen.dropWhile (· < i)).head? = none) ↔
        state.chosen = [] := by
    rw [getLast?_eq_none_iff, head?_eq_none_iff, ← append_eq_nil_iff, takeWhile_append_dropWhile]
  unfold Chosen.extra costBetween
  simp only [isEmpty, isCost, Bool.not_eq_true', isEmpty_eq_false_iff]
  by_cases none : state.chosen = []
  · rw [if_pos none, if_neg (not_not.mpr none)]
  · rw [if_neg none, if_pos none]
    rfl

variable {i gapSize spent : Nat}

theorem Chosen.Sound.take (sound : state.Sound units gap piece)
    (isCost : ∀ i, (unitAt units i).cost = (piece i).length)
    (inRange : i < units.length) (limit : Int) :
    (state.take units gap.length i limit).2.Sound units gap piece := by
  rcases @Chosen.take_cases units state gap.length i limit with
    ⟨isChosen, isTaken⟩ | ⟨fresh, isTaken | isTaken⟩
  · rw [isTaken]
    exact sound
  · rw [isTaken]
    exact sound
  · rw [isTaken]
    have before (other : Nat) (isIn : other ∈ state.chosen.takeWhile (· < i)) :=
      lt_of_mem_takeWhile isIn
    have behind (other : Nat) (isIn : other ∈ state.chosen.dropWhile (· < i)) :=
      lt_of_mem_dropWhile sound.ascending fresh isIn
    refine ⟨pairwise_insert sound.ascending fresh, ?_, ?_⟩
    · intro other isIn
      rcases mem_append.mp isIn with isIn | isIn
      · exact sound.inRange other ((takeWhile_sublist _).mem isIn)
      · rcases mem_cons.mp isIn with rfl | isIn
        · exact inRange
        · exact sound.inRange other ((dropWhile_sublist _).mem isIn)
    · have inserted := @length_joinFrom_insert _ gap piece _ _ i before behind
      rw [takeWhile_append_dropWhile, joinFrom_eq_joinRuns, joinFrom_eq_joinRuns] at inserted
      show state.used + state.extra units gap.length i =
        ((joinRuns isNext gap piece _).length : Int)
      rw [inserted, Chosen.extra_eq isCost, sound.cost]
      rfl

/-! ## Phases -/

/-- Calls of `take`, one after the other. -/
def Chosen.takes (units : List TextUnit) (gapSize : Nat) (state : Chosen)
    (calls : List (Nat × Int)) : Chosen :=
  calls.foldl (fun state call => (state.take units gapSize call.1 call.2).2) state

/-- The calls are about sentences. -/
def Calls (units : List TextUnit) (calls : List (Nat × Int)) : Prop :=
  ∀ call ∈ calls, call.1 < units.length

/-- A state is left by calls of `take`. -/
def Reaches (units : List TextUnit) (gapSize : Nat) (first last : Chosen) : Prop :=
  ∃ calls, Calls units calls ∧ first.takes units gapSize calls = last

theorem Chosen.Sound.takes (sound : state.Sound units gap piece)
    (isCost : ∀ i, (unitAt units i).cost = (piece i).length)
    {calls : List (Nat × Int)} (areCalls : Calls units calls) :
    (state.takes units gap.length calls).Sound units gap piece := by
  induction calls generalizing state with
  | nil => exact sound
  | cons call calls ih =>
    refine ih (sound.take isCost (areCalls call mem_cons_self) _) ?_
    intro other isIn
    exact areCalls other (mem_cons_of_mem _ isIn)

namespace Reaches

variable {gapSize : Nat} {first middle last : Chosen}

theorem refl (state : Chosen) : Reaches units gapSize state state := by
  refine ⟨[], ?_, rfl⟩
  intro call isIn
  nomatch isIn

theorem trans (earlier : Reaches units gapSize first middle)
    (later : Reaches units gapSize middle last) :
    Reaches units gapSize first last := by
  rcases earlier with ⟨calls, areCalls, rfl⟩
  rcases later with ⟨calls', areCalls', rfl⟩
  refine ⟨calls ++ calls', ?_, foldl_append⟩
  intro call isIn
  rcases mem_append.mp isIn with isIn | isIn
  · exact areCalls call isIn
  · exact areCalls' call isIn

theorem take (inRange : i < units.length) (limit : Int) :
    Reaches units gapSize first (first.take units gapSize i limit).2 := by
  refine ⟨[(i, limit)], ?_, rfl⟩
  intro call isIn
  rw [mem_singleton.mp isIn]
  exact inRange

end Reaches

theorem Chosen.mem_take {other : Nat} {limit : Int} (isChosen : other ∈ state.chosen) :
    other ∈ (state.take units gapSize i limit).2.chosen := by
  rcases @Chosen.take_cases units state gapSize i limit with
    ⟨-, isTaken⟩ | ⟨-, isTaken | isTaken⟩
  · rw [isTaken]
    exact isChosen
  · rw [isTaken]
    exact isChosen
  · rw [isTaken]
    rw [← takeWhile_append_dropWhile (p := (· < i)) (l := state.chosen), mem_append] at isChosen
    rcases isChosen with isBefore | isBehind
    · exact mem_append_left _ isBefore
    · exact mem_append_right _ (mem_cons_of_mem _ isBehind)

theorem Reaches.subset {first : Chosen} (reaches : Reaches units gapSize first last)
    (isChosen : i ∈ first.chosen) : i ∈ last.chosen := by
  rcases reaches with ⟨calls, -, rfl⟩
  induction calls generalizing first with
  | nil => exact isChosen
  | cons call calls ih => exact ih (Chosen.mem_take isChosen)

theorem Chosen.mem_of_taken {limit : Int} (isTaken : (state.take units gapSize i limit).1 = true) :
    i ∈ (state.take units gapSize i limit).2.chosen := by
  rcases @Chosen.take_cases units state gapSize i limit with
    ⟨isChosen, same⟩ | ⟨-, same | same⟩
  · rw [same]
    exact isChosen
  · rw [same] at isTaken
    nomatch isTaken
  · rw [same]
    exact mem_append_cons_self

section Loops

variable {gapSize : Nat} {limit : Int}

theorem boundaryLoop_spec {boundaryTokens : Nat} {order : List Nat}
    (inRange : ∀ i ∈ order, i < units.length)
    (isLast :
      boundaryLoop units gapSize boundaryTokens limit order spent state =
        some last) :
    Reaches units gapSize state last ∧ ∀ before i behind, order = before ++ i :: behind →
        spent + (before.map fun i => (unitAt units i).cost).sum < boundaryTokens →
          i ∈ last.chosen := by
  induction order generalizing spent state with
  | nil =>
    cases isLast
    refine ⟨Reaches.refl _, ?_⟩
    intro before i behind isOrder
    exact absurd isOrder.symm (by simp)
  | cons next order ih =>
    rw [boundaryLoop] at isLast
    split at isLast
    · simp only at isLast
      split at isLast
      · rename_i isTaken
        rcases ih (fun i isIn => inRange i (mem_cons_of_mem _ isIn)) isLast with
          ⟨reaches, covers⟩
        refine ⟨(Reaches.take (inRange next mem_cons_self) _).trans reaches, ?_⟩
        intro before i behind isOrder less
        cases before with
        | nil =>
          obtain ⟨rfl, -⟩ := List.cons.inj isOrder
          exact reaches.subset (Chosen.mem_of_taken isTaken)
        | cons first before =>
          obtain ⟨rfl, isRest⟩ := List.cons.inj isOrder
          rw [map_cons, sum_cons] at less
          exact covers before i behind isRest (by omega)
      · nomatch isLast
    · rename_i enough
      cases isLast
      refine ⟨Reaches.refl _, ?_⟩
      intro before i behind _ less
      omega

theorem reserve_reaches {rare : List Nat} (inRange : ∀ i ∈ rare, i < units.length) :
    Reaches units gapSize state (reserve units gapSize limit state rare).1 := by
  unfold reserve
  obtain ⟨count, isCount⟩ : ∃ count, 0 = count := ⟨0, rfl⟩
  rw [isCount]
  clear isCount
  induction rare generalizing state count with
  | nil => exact Reaches.refl _
  | cons i rare ih =>
    have inRare : ∀ i ∈ rare, i < units.length := fun i isIn =>
      inRange i (mem_cons_of_mem _ isIn)
    by_cases isChosen : state.chosen.contains i = true
    · simp only [foldl_cons, isChosen, if_true]
      exact ih inRare count
    · simp only [foldl_cons, isChosen]
      exact (Reaches.take (inRange i mem_cons_self) limit).trans (ih inRare _)

theorem floorLoop_spec {floor : Nat} {steps : List (Rank D)}
    (areRanks : RanksOf units.length steps) :
    Reaches units gapSize state (floorLoop units gapSize floor limit steps spent state).2 ∧
      RanksOf units.length (floorLoop units gapSize floor limit steps spent state).1 := by
  induction steps generalizing spent state with
  | nil => exact ⟨Reaches.refl _, areRanks⟩
  | cons step steps ih =>
    rw [floorLoop]
    have isStep := areRanks step mem_cons_self
    have areSteps : RanksOf units.length steps := fun rank isIn =>
      areRanks rank (mem_cons_of_mem _ isIn)
    split
    · exact ⟨(Reaches.take isStep limit).trans (ih areSteps).1, (ih areSteps).2⟩
    · exact ⟨Reaches.refl _, areRanks⟩

theorem queueLoop_reaches {ops : DoubleOps D} {fuel : Nat} {queue : List (Rank D)}
    {left : List (List (Rank D))} (areQueued : RanksOf units.length queue)
    (areLeft : ∀ steps ∈ left, RanksOf units.length steps)
    (isLast : queueLoop units gapSize ops limit fuel queue left state = some last) :
    Reaches units gapSize state last := by
  induction fuel generalizing queue left state with
  | zero => nomatch isLast
  | succ fuel ih =>
    rw [queueLoop] at isLast
    cases isPopped : popTop ops queue with
    | none =>
      rw [isPopped] at isLast
      cases isLast
      exact Reaches.refl _
    | some popped =>
      rcases popped with ⟨next, others⟩
      rw [isPopped] at isLast
      have known := popTop_mem isPopped
      have isNext := areQueued next (known next mem_cons_self)
      have areOthers : RanksOf units.length others := fun rank isIn =>
        areQueued rank (known rank (mem_cons_of_mem _ isIn))
      have areBehind : RanksOf units.length ((left.getD next.group []).drop 1) := by
        intro rank isIn
        have isIn := mem_of_mem_drop isIn
        rw [getD_eq_getElem?_getD] at isIn
        cases isAt : left[next.group]? with
        | none =>
          rw [isAt] at isIn
          nomatch isIn
        | some steps =>
          rw [isAt] at isIn
          exact areLeft steps (mem_of_getElem? isAt) rank isIn
      refine (Reaches.take isNext limit).trans (ih ?_ ?_ isLast)
      · split
        · rename_i step isHead
          refine areOthers.append (RanksOf.singleton ?_)
          exact areBehind step (mem_of_head? isHead)
        · exact areOthers
      · intro steps isIn
        rcases mem_or_eq_of_mem_set isIn with isIn | rfl
        · exact areLeft steps isIn
        · exact areBehind

end Loops

end Choose

end Mnn.Llm.TokenCompression
