import Mnn.Foundation.LazyGreedy
import Mnn.Llm.CompressorBudget

/-!
# The steps of a group

`prepare` keeps the sentences of a group in a priority queue and recomputes the
gain of a sentence only when it is popped.  With exact numbers this is the
selection that looks at all the sentences each time.
-/

namespace Mnn.Llm.TokenCompression

open Mnn.Foundation.LazyGreedy
open List
open Nat

variable {K : Type} [Field K] [LinearOrder K]

/-- Numbers are not rounded.  What is known of `log` is its sign. -/
structure DoubleOps.IsExact (ops : DoubleOps K) : Prop where
  ofNat_eq : ∀ n, ops.ofNat n = n
  quarter_eq : ops.quarter = 1 / 4
  add_eq : ∀ x y, ops.add x y = x + y
  mul_eq : ∀ x y, ops.mul x y = x * y
  div_eq : ∀ x y, y ≠ 0 → ops.div x y = x / y
  log_nonneg : ∀ x, 1 ≤ x → 0 ≤ ops.log x
  lt_eq : ∀ x y, ops.lt x y = decide (x < y)
  le_eq : ∀ x y, ops.le x y = decide (x ≤ y)
  eq_eq : ∀ x y, ops.eq x y = decide (x = y)

/-! ## The priority queue -/

section Queue

variable {ops : DoubleOps K}

/-- What a rank bids. -/
def Rank.bid (rank : Rank K) : K × Nat := (rank.score, rank.index)

/-- The rank of a bid in its own group. -/
def bidRank (bid : K × Nat) : Rank K := { score := bid.1, index := bid.2, group := 0 }

theorem outbids_of_less (exact : ops.IsExact) {first second : Rank K}
    (isLess : first.less ops second) : Outbids second.bid first.bid := by
  rw [Rank.less, exact.eq_eq, exact.lt_eq] at isLess
  split at isLess
  · exact Or.inl (of_decide_eq_true isLess)
  · rename_i same
    have sameScore : first.score = second.score := by simpa using same
    exact Or.inr ⟨sameScore, (of_decide_eq_true isLess).le⟩

theorem outbids_of_not_less (exact : ops.IsExact) {first second : Rank K}
    (notLess : ¬first.less ops second) : Outbids first.bid second.bid := by
  rw [Rank.less, exact.eq_eq, exact.lt_eq] at notLess
  split at notLess
  · rename_i different
    have notSame : first.score ≠ second.score := by simpa using different
    have least := not_lt.mp fun less => notLess (decide_eq_true less)
    exact Or.inl (lt_of_le_of_ne least notSame.symm)
  · rename_i same
    have sameScore : first.score = second.score := by simpa using same
    exact Or.inr ⟨sameScore.symm, not_lt.mp fun less => notLess (decide_eq_true less)⟩

theorem popTop_isTop (exact : ops.IsExact) {queue others : List (Rank K)} {top : Rank K}
    (isPopped : popTop ops queue = some (top, others)) :
    IsTop top.bid (others.map Rank.bid) := by
  induction queue generalizing top others with
  | nil => cases isPopped
  | cons first queue ih =>
    rw [popTop] at isPopped
    cases isRest : popTop ops queue with
    | none =>
      rw [isRest] at isPopped
      cases isPopped
      exact fun bid isIn => absurd isIn not_mem_nil
    | some popped =>
      rcases popped with ⟨best, left⟩
      rw [isRest] at isPopped
      have known := ih isRest
      simp only at isPopped
      split at isPopped
      · rename_i isLess
        cases isPopped
        intro bid isIn
        rcases mem_cons.mp isIn with rfl | isIn
        · exact outbids_of_less exact isLess
        · exact known bid isIn
      · rename_i notLess
        cases isPopped
        intro bid isIn
        have higher := outbids_of_not_less exact notLess
        rcases mem_cons.mp isIn with rfl | isIn
        · exact higher
        · exact higher.trans (known bid isIn)

end Queue

/-! ## Sentences as items -/

section Items

variable (weights : Nat → K) (units : List TextUnit)

/-- The weights of the features that are new, for each token. -/
def gainPerToken (covered : List Nat) (i : Nat) : K :=
  (((unitAt units i).features.filter fun f => !covered.contains f).map weights).sum /
    (unitAt units i).cost

/-- Sentences are taken up to a cost; what is known is the cost and the features. -/
def sentences (share : Nat) : Choice (Nat × List Nat) Nat K where
  fits := fun (spent, _) i => spent + (unitAt units i).cost ≤ share
  gain := fun (_, covered) i => gainPerToken weights units covered i
  take := fun (spent, covered) i =>
    (spent + (unitAt units i).cost, covered ++ (unitAt units i).features)

variable {weights units}

theorem sum_new_le [IsStrictOrderedRing K] (isWeight : ∀ f, 0 ≤ weights f) (features covered more : List Nat) :
    ((features.filter fun f => !(covered ++ more).contains f).map weights).sum ≤
      ((features.filter fun f => !covered.contains f).map weights).sum := by
  refine (List.Sublist.map weights ?_).sum_le_sum ?_
  · refine monotone_filter_right features fun f isNew => ?_
    rw [contains_append, Bool.not_or, Bool.and_eq_true] at isNew
    exact isNew.1
  · intro value isIn
    rcases mem_map.mp isIn with ⟨f, -, rfl⟩
    exact isWeight f

variable [IsStrictOrderedRing K]

/-- Features are only counted once, so a sentence gains less beside others. -/
theorem sentences_diminishing (isWeight : ∀ f, 0 ≤ weights f) (share : Nat)
    (members : List Nat) : Diminishing (sentences weights units share) members where
  fits_of_take := fun state i j _ fits =>
    le_trans (Nat.add_le_add_right (Nat.le_add_right state.1 _) _) fits
  gain_take_le := fun state i j _ =>
    div_le_div_of_nonneg_right (sum_new_le isWeight _ _ _) (cast_nonneg _)
  gain_taken := fun state i _ => by
    have none : ((unitAt units i).features.filter fun f =>
          !(state.2 ++ (unitAt units i).features).contains f) = [] := by
      refine filter_eq_nil_iff.mpr fun f isFeature => ?_
      rw [Bool.not_eq_true', Bool.not_eq_false, contains_iff_mem]
      exact mem_append_right _ isFeature
    show gainPerToken weights units (state.2 ++ (unitAt units i).features) i ≤ 0
    rw [gainPerToken, none, map_nil, sum_nil, zero_div]

end Items

/-! ## The loop with exact numbers -/

section Exact

variable [IsStrictOrderedRing K] {ops : DoubleOps K} {units : List TextUnit}
  {bigrams : List Bool} {members : List Nat}

namespace DoubleOps.IsExact

theorem weight_nonneg (exact : ops.IsExact) (f : Nat) : 0 ≤ weight ops units bigrams members f := by
  have positive : (0 : K) < ((memberDf units members f + 1 : Nat) : K) :=
    cast_pos.mpr (succ_pos _)
  rw [weight, exact.mul_eq, exact.ofNat_eq, exact.ofNat_eq,
    exact.div_eq _ _ positive.ne']
  refine mul_nonneg (exact.log_nonneg _ ?_) ?_
  · rw [one_le_div positive]
    exact cast_le.mpr (succ_le_succ countP_le_length)
  · split
    · rw [exact.quarter_eq]
      positivity
    · rw [exact.ofNat_eq]
      exact cast_nonneg 1

theorem gain_eq (exact : ops.IsExact) (covered : List Nat) {i : Nat}
    (cost : 0 < (unitAt units i).cost) :
    gain ops units bigrams members covered i =
      gainPerToken (weight ops units bigrams members) units covered i := by
  have sum : ∀ (features : List Nat) (value : K), features.foldl (fun value f =>
            if covered.contains f then value
            else ops.add value (weight ops units bigrams members f))
          value =
        value + ((features.filter fun f => !covered.contains f).map
            (weight ops units bigrams members)).sum := by
    intro features
    induction features with
    | nil => intro value; exact (add_zero value).symm
    | cons f features ih =>
      intro value
      rw [foldl_cons, ih]
      by_cases isCovered : covered.contains f
      · rw [if_pos isCovered, filter_cons_of_neg (by rw [isCovered]; decide)]
      · rw [if_neg isCovered, filter_cons_of_pos (by rw [Bool.eq_false_of_not_eq_true isCovered]; rfl),
          map_cons, sum_cons, exact.add_eq, add_assoc]
  rw [gain, gainPerToken, exact.ofNat_eq, exact.ofNat_eq,
    exact.div_eq _ _ (cast_ne_zero.mpr cost.ne'), sum, cast_zero, zero_add]

end DoubleOps.IsExact

theorem firstQueue_offers (exact : ops.IsExact)
    (costs : ∀ i ∈ members, 0 < (unitAt units i).cost) (share : Nat) :
    Offers (sentences (weight ops units bigrams members) units share) members (0, [])
      ((firstQueue ops units bigrams members).map Rank.bid) := by
  have isBid : ∀ bid, bid ∈ (firstQueue ops units bigrams members).map Rank.bid ↔ ∃ i ∈ members,
        0 < gainPerToken (weight ops units bigrams members) units [] i ∧
          (gainPerToken (weight ops units bigrams members) units [] i, i) = bid := by
    intro bid
    rw [firstQueue, map_filterMap, mem_filterMap]
    refine exists_congr fun i => and_congr_right fun isMember => ?_
    simp only [exact.gain_eq [] (costs i isMember), exact.lt_eq, exact.ofNat_eq, cast_zero]
    split
    · rename_i gains
      exact ⟨fun isSome => ⟨of_decide_eq_true gains, Option.some.inj isSome⟩,
          fun isPair => congrArg some isPair.2⟩
    · rename_i noGain
      constructor
      · intro isSome
        nomatch isSome
      · intro isPair
        exact absurd (decide_eq_true isPair.1) noGain
  refine ⟨?_, ?_, ?_⟩
  · intro bid isIn
    rcases (isBid bid).mp isIn with ⟨i, isMember, -, rfl⟩
    exact isMember
  · intro bid isIn
    rcases (isBid bid).mp isIn with ⟨i, -, -, rfl⟩
    exact le_refl _
  · intro i isMember _ gains
    exact ⟨_, (isBid _).mpr ⟨i, isMember, gains, rfl⟩, rfl⟩

/-- Each way through the loop keeps the bids, and leaves less to do. -/
theorem prepareLoop_greedy (exact : ops.IsExact)
    (costs : ∀ i ∈ members, 0 < (unitAt units i).cost) {cost fuel : Nat}
    {queue steps : List (Rank K)} {spent : Nat} {covered : List Nat}
    (inGroup : ∀ rank ∈ queue, rank.group = 0)
    (offers : Offers (sentences (weight ops units bigrams members) units (cost / 4)) members
        (spent, covered) (queue.map Rank.bid))
    (enough : work (sentences (weight ops units bigrams members) units (cost / 4))
        (spent, covered) (queue.map Rank.bid) < fuel) :
    ∃ chosen, Greedy (sentences (weight ops units bigrams members) units (cost / 4)) members
        (spent, covered) chosen ∧
      prepareLoop ops units bigrams members cost fuel queue spent covered steps =
        some (steps ++ chosen.map bidRank) := by
  induction fuel generalizing queue spent covered steps with
  | zero => cases enough
  | succ fuel ih =>
    rw [prepareLoop]
    cases isPopped : popTop ops queue with
    | none =>
      obtain rfl := popTop_eq_none isPopped
      exact ⟨[], Greedy.stop offers.nothing, by rw [map_nil, append_nil]⟩
    | some popped =>
      rcases popped with ⟨next, others⟩
      have isPerm := (popTop_perm isPopped).map Rank.bid
      have isTop := popTop_isTop exact isPopped
      have inGroup' : ∀ rank ∈ next :: others, rank.group = 0 := fun rank isIn =>
        inGroup rank (popTop_mem isPopped rank isIn)
      have offers' := offers.perm isPerm
      have isMember := offers'.mem next.bid mem_cons_self
      rw [work_perm isPerm] at enough
      have isGain :=
        show gain ops units bigrams members covered next.index = _ from
          exact.gain_eq covered (costs _ isMember)
      have areOthers : ∀ rank ∈ others, rank.group = 0 := fun rank isIn =>
        inGroup' rank (mem_cons_of_mem _ isIn)
      simp only [isGain, exact.le_eq, exact.eq_eq, exact.ofNat_eq, cast_zero]
      have less : ∀ state,
          work (sentences (weight ops units bigrams members) units (cost / 4)) state
            (others.map Rank.bid) < fuel := fun state =>
        lt_of_lt_of_le (work_others_lt state) (Nat.lt_succ_iff.mp enough)
      split
      · rename_i tooLong
        refine ih areOthers (offers'.drop fun fits => ?_) (less _)
        exact absurd fits (not_le.mpr tooLong)
      · rename_i fits
        split
        · rename_i noGain
          exact ih areOthers (offers'.drop fun _ => of_decide_eq_true noGain) (less _)
        · rename_i gains
          split
          · rename_i outdated
            have isOther : (sentences (weight ops units bigrams members) units (cost / 4)).gain
                  (spent, covered) next.bid.2 ≠ next.bid.1 := by
              have isOther : gainPerToken (weight ops units bigrams members) units
                  covered next.index ≠ next.score := by simpa using outdated
              exact isOther
            have renewed :
                ((others ++ [bidRank (gainPerToken (weight ops units bigrams members) units
                    covered next.index, next.index)]).map Rank.bid).Perm
                  (((sentences (weight ops units bigrams members) units (cost / 4)).gain
                    (spent, covered) next.bid.2, next.bid.2) :: others.map Rank.bid) := by
              rw [map_append]
              exact perm_append_singleton _ _
            refine ih ?_ (offers'.refresh.perm renewed.symm) ?_
            · intro rank isIn
              rcases mem_append.mp isIn with isIn | isIn
              · exact areOthers rank isIn
              · rw [mem_singleton.mp isIn]
            · refine lt_of_eq_of_lt (work_perm renewed) ?_
              exact lt_of_lt_of_le (work_refresh_lt isOther) (Nat.lt_succ_iff.mp enough)
          · rename_i current
            have isSame : gainPerToken (weight ops units bigrams members) units covered
                next.index = next.score := by simpa using current
            have best := offers'.isBest isTop (not_lt.mp fits)
                (not_le.mp fun noGain => gains (decide_eq_true noGain)) isSame
            rcases @ih _ (steps ++ [next]) _ _ areOthers
                (offers'.take (sentences_diminishing exact.weight_nonneg _ _))
                (less _) with
              ⟨chosen, greedy, isPrepared⟩
            have isNext : bidRank (gainPerToken (weight ops units bigrams members) units covered
                  next.index, next.index) = next := by
              rw [isSame, bidRank, ← inGroup' next mem_cons_self]
            refine ⟨_, Greedy.take best greedy, isPrepared.trans (congrArg some ?_)⟩
            rw [append_assoc, map_cons]
            exact congrArg (fun rank => steps ++ rank :: chosen.map bidRank) isNext.symm

/--
`prepare` comes to an end with the steps of the selection that compares all
members of the group each time.
-/
theorem prepare_greedy (exact : ops.IsExact) (units : List TextUnit)
    (bigrams : List Bool) (group : Group K)
    (costs : ∀ i ∈ group.members, 0 < (unitAt units i).cost) :
    ∃ chosen, (∀ other,
        Greedy (sentences (weight ops units bigrams group.members) units (group.cost / 4))
            group.members (0, []) other ↔
          other = chosen) ∧
      ∀ fuel, group.members.length * (group.members.length + 2) < fuel →
        prepare ops fuel units bigrams group =
          some { group with steps := chosen.map bidRank } := by
  have offers :=
    @firstQueue_offers K _ _ _ ops units bigrams group.members exact costs (group.cost / 4)
  have few : (firstQueue ops units bigrams group.members).length ≤ group.members.length :=
    length_filterMap_le ..
  have inGroup : ∀ rank ∈ firstQueue ops units bigrams group.members, rank.group = 0 := by
    intro rank isIn
    rcases mem_filterMap.mp isIn with ⟨i, -, isRank⟩
    simp only at isRank
    split at isRank
    · cases isRank
      rfl
    · nomatch isRank
  have run : ∀ fuel, group.members.length * (group.members.length + 2) < fuel → ∃ chosen,
        Greedy (sentences (weight ops units bigrams group.members) units (group.cost / 4))
          group.members (0, []) chosen ∧
        prepareLoop ops units bigrams group.members group.cost fuel
            (firstQueue ops units bigrams group.members) 0 [] [] =
          some (chosen.map bidRank) := by
    intro fuel enough
    refine prepareLoop_greedy exact costs inGroup offers (lt_of_le_of_lt work_le ?_)
    rw [length_map]
    exact lt_of_le_of_lt (Nat.mul_le_mul few (Nat.add_le_add_right few 2)) enough
  rcases run _ (lt_succ_self _) with ⟨chosen, greedy, -⟩
  refine ⟨chosen, fun other => ⟨fun isGreedy => isGreedy.unique greedy, ?_⟩, ?_⟩
  · rintro rfl
    exact greedy
  · intro fuel enough
    rcases run fuel enough with ⟨chosen', greedy', isPrepared⟩
    rw [prepare, isPrepared, greedy'.unique greedy]
    rfl

end Exact

/-- Real numbers are not rounded. -/
noncomputable def realOps : DoubleOps ℝ where
  ofNat := Nat.cast
  quarter := 1 / 4
  add := fun x y => x + y
  mul := fun x y => x * y
  div := fun x y => x / y
  log := Real.log
  sqrt := Real.sqrt
  lt := fun x y => decide (x < y)
  le := fun x y => decide (x ≤ y)
  eq := fun x y => decide (x = y)
  toNat := fun x => ⌊x⌋₊

theorem realOps_isExact : realOps.IsExact where
  ofNat_eq := fun _ => rfl
  quarter_eq := rfl
  add_eq := fun _ _ => rfl
  mul_eq := fun _ _ => rfl
  div_eq := fun _ _ _ => rfl
  log_nonneg := fun _ => Real.log_nonneg
  lt_eq := fun _ _ => rfl
  le_eq := fun _ _ => rfl
  eq_eq := fun _ _ => rfl

theorem prepare_greedy_three :
    let units : List TextUnit := [⟨1, [0]⟩, ⟨2, [0, 1]⟩, ⟨1, [1, 2]⟩]
    let group : Group ℝ := { cost := 16, members := [0, 1, 2] }
    realOps.IsExact ∧ (∀ i ∈ group.members, 0 < (unitAt units i).cost) ∧ ∃ chosen, (∀ other,
          Greedy (sentences (weight realOps units [] group.members) units 4)
              group.members (0, []) other ↔
            other = chosen) ∧
        ∀ fuel, 15 < fuel → prepare realOps fuel units [] group =
            some { group with steps := chosen.map bidRank } := by
  refine ⟨realOps_isExact, by decide, ?_⟩
  exact prepare_greedy realOps_isExact [⟨1, [0]⟩, ⟨2, [0, 1]⟩, ⟨1, [1, 2]⟩] []
      { cost := 16, members := [0, 1, 2] } (by decide)

end Mnn.Llm.TokenCompression
