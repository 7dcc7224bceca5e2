import Mathlib

/-!
# Lazy greedy selection

Items are taken one after the other, each time the one that gains most.  If no
item gains more when another one is taken, old gains are upper bounds of the
gains there are.  So a queue of bids is enough: a bid that is on top and not
out of date belongs to the best item, whatever the others would bid now.
-/

namespace Mnn.Foundation.LazyGreedy

open List

variable {State Item Score : Type} [LinearOrder Score]

section Highest

variable [LinearOrder Item]

/-- A bid is higher, or as high and of an item that comes first. -/
def Outbids (first second : Score × Item) : Prop :=
  second.1 < first.1 ∨ second.1 = first.1 ∧ first.2 ≤ second.2

theorem Outbids.trans {first second third : Score × Item} (higher : Outbids first second)
    (lower : Outbids second third) : Outbids first third := by
  rcases higher with less | ⟨same, le⟩
  · rcases lower with less' | ⟨same', -⟩
    · exact Or.inl (lt_trans less' less)
    · exact Or.inl (same' ▸ less)
  · rcases lower with less' | ⟨same', le'⟩
    · exact Or.inl (same ▸ less')
    · exact Or.inr ⟨same'.trans same, le_trans le le'⟩

def IsTop (top : Score × Item) (others : List (Score × Item)) : Prop :=
  ∀ bid ∈ others, Outbids top bid

end Highest

/-- What can be taken, what it gains, and what is there when it is taken. -/
structure Choice (State Item Score : Type) where
  fits : State → Item → Prop
  gain : State → Item → Score
  take : State → Item → State

section Choosing

variable [Zero Score]

variable (choice : Choice State Item Score) (items : List Item)

/-- Nothing fits, or gains more, because of what is taken. -/
structure Diminishing : Prop where
  fits_of_take : ∀ state i, ∀ j ∈ items, choice.fits (choice.take state i) j → choice.fits state j
  gain_take_le : ∀ state i, ∀ j ∈ items, choice.gain (choice.take state i) j ≤ choice.gain state j
  gain_taken : ∀ state, ∀ i ∈ items, choice.gain (choice.take state i) i ≤ 0

/-! ## Bids -/

/-- Bids of items are at least their gains, and what gains something has a bid. -/
structure Offers (state : State) (queue : List (Score × Item)) : Prop where
  mem : ∀ bid ∈ queue, bid.2 ∈ items
  bounds : ∀ bid ∈ queue, choice.gain state bid.2 ≤ bid.1
  complete : ∀ i ∈ items, choice.fits state i → 0 < choice.gain state i → ∃ bid ∈ queue, bid.2 = i

variable {choice items} {state : State}

namespace Offers

variable {top : Score × Item} {queue others : List (Score × Item)}

theorem perm (offers : Offers choice items state queue) (isPerm : queue.Perm others) :
    Offers choice items state others := by
  refine ⟨fun bid isIn => offers.mem bid (isPerm.mem_iff.mpr isIn),
      fun bid isIn => offers.bounds bid (isPerm.mem_iff.mpr isIn), ?_⟩
  intro i isItem fits gains
  rcases offers.complete i isItem fits gains with ⟨bid, isIn, isBid⟩
  exact ⟨bid, isPerm.mem_iff.mp isIn, isBid⟩

theorem nothing (offers : Offers choice items state []) :
    ∀ i ∈ items, choice.fits state i → choice.gain state i ≤ 0 := by
  intro i isItem fits
  refine not_lt.mp fun gains => ?_
  rcases offers.complete i isItem fits gains with ⟨bid, isIn, -⟩
  exact absurd isIn not_mem_nil

/-- A bid of an item that cannot be taken, or gains nothing, is left out. -/
theorem drop (offers : Offers choice items state (top :: others))
    (useless : choice.fits state top.2 → choice.gain state top.2 ≤ 0) :
    Offers choice items state others := by
  refine ⟨fun bid isIn => offers.mem bid (mem_cons_of_mem _ isIn),
      fun bid isIn => offers.bounds bid (mem_cons_of_mem _ isIn), ?_⟩
  intro i isItem fits gains
  rcases offers.complete i isItem fits gains with ⟨bid, isIn, rfl⟩
  rcases mem_cons.mp isIn with rfl | isIn
  · exact absurd gains (not_lt.mpr (useless fits))
  · exact ⟨bid, isIn, rfl⟩

theorem refresh (offers : Offers choice items state (top :: others)) :
    Offers choice items state ((choice.gain state top.2, top.2) :: others) := by
  constructor
  · intro bid isIn
    rcases mem_cons.mp isIn with rfl | isIn
    · exact offers.mem top mem_cons_self
    · exact offers.mem bid (mem_cons_of_mem _ isIn)
  · intro bid isIn
    rcases mem_cons.mp isIn with rfl | isIn
    · exact le_refl _
    · exact offers.bounds bid (mem_cons_of_mem _ isIn)
  · intro i isItem fits gains
    rcases offers.complete i isItem fits gains with ⟨bid, isIn, rfl⟩
    rcases mem_cons.mp isIn with rfl | isIn
    · exact ⟨_, mem_cons_self, rfl⟩
    · exact ⟨bid, mem_cons_of_mem _ isIn, rfl⟩

theorem take (diminishing : Diminishing choice items)
    (offers : Offers choice items state (top :: others)) :
    Offers choice items (choice.take state top.2) others := by
  have isItem := offers.mem top mem_cons_self
  constructor
  · exact fun bid isIn => offers.mem bid (mem_cons_of_mem _ isIn)
  · intro bid isIn
    have isIn' := mem_cons_of_mem top isIn
    exact le_trans (diminishing.gain_take_le state top.2 bid.2 (offers.mem bid isIn'))
        (offers.bounds bid isIn')
  · intro j isItem' fits gains
    rcases offers.complete j isItem' (diminishing.fits_of_take state top.2 j isItem' fits)
        (lt_of_lt_of_le gains (diminishing.gain_take_le state top.2 j isItem')) with
      ⟨bid, isIn, rfl⟩
    rcases mem_cons.mp isIn with rfl | isIn
    · exact absurd gains (not_lt.mpr (diminishing.gain_taken state bid.2 isItem))
    · exact ⟨bid, isIn, rfl⟩

end Offers

/-! ## Eager selection -/

variable [LinearOrder Item]

variable (choice items) in
/-- The first of the items that gain most among those that fit. -/
structure IsBest (state : State) (i : Item) : Prop where
  mem : i ∈ items
  fits : choice.fits state i
  gains : 0 < choice.gain state i
  best :
    ∀ j ∈ items, choice.fits state j → choice.gain state j < choice.gain state i ∨
        choice.gain state j = choice.gain state i ∧ i ≤ j

variable (choice items) in
/-- The best item is taken as long as one gains something. -/
inductive Greedy : State → List (Score × Item) → Prop
  | stop {state : State} (nothing : ∀ i ∈ items, choice.fits state i → choice.gain state i ≤ 0) :
      Greedy state []
  | take {state : State} {i : Item} {steps : List (Score × Item)}
      (best : IsBest choice items state i)
      (behind : Greedy (choice.take state i) steps) :
      Greedy state ((choice.gain state i, i) :: steps)

theorem IsBest.unique {i j : Item}
    (first : IsBest choice items state i) (second : IsBest choice items state j) :
    i = j := by
  rcases first.best j second.mem second.fits with less | ⟨same, le⟩
  · rcases second.best i first.mem first.fits with less' | ⟨same', -⟩
    · exact absurd less (lt_asymm less')
    · exact absurd less (same' ▸ lt_irrefl _)
  · rcases second.best i first.mem first.fits with less' | ⟨-, ge⟩
    · exact absurd less' (same ▸ lt_irrefl _)
    · exact le_antisymm le ge

theorem Greedy.unique {first second : List (Score × Item)}
    (isFirst : Greedy choice items state first)
    (isSecond : Greedy choice items state second) : first = second := by
  induction isFirst generalizing second with
  | stop nothing =>
    cases isSecond with
    | stop => rfl
    | take best => exact absurd best.gains (not_lt.mpr (nothing _ best.mem best.fits))
  | take best behind ih =>
    cases isSecond with
    | stop nothing =>
      exact absurd best.gains (not_lt.mpr (nothing _ best.mem best.fits))
    | take best' behind' =>
      obtain rfl := best.unique best'
      rw [ih behind']

/-- The bid on top belongs to the best item if the item still gains that much. -/
theorem Offers.isBest {top : Score × Item} {others : List (Score × Item)}
    (offers : Offers choice items state (top :: others))
    (isTop : IsTop top others) (fits : choice.fits state top.2)
    (gains : 0 < choice.gain state top.2) (current : choice.gain state top.2 = top.1) :
    IsBest choice items state top.2 := by
  refine ⟨offers.mem top mem_cons_self, fits, gains, ?_⟩
  intro j isItem fits'
  by_cases gains' : 0 < choice.gain state j
  · rcases offers.complete j isItem fits' gains' with ⟨bid, isIn, rfl⟩
    rcases mem_cons.mp isIn with rfl | isOther
    · exact Or.inr ⟨rfl, le_refl _⟩
    · have bounded := offers.bounds bid isIn
      rw [current]
      rcases isTop bid isOther with less | ⟨same, le⟩
      · exact Or.inl (lt_of_le_of_lt bounded less)
      · rcases lt_or_eq_of_le bounded with less | equal
        · exact Or.inl (same ▸ less)
        · exact Or.inr ⟨equal.trans same, le⟩
  · exact Or.inl (lt_of_le_of_lt (not_lt.mp gains') gains)

end Choosing

/-! ## How long it takes -/

variable {choice : Choice State Item Score} {state : State}

variable (choice) in
/-- The bids that are out of date. -/
def stale (state : State) (queue : List (Score × Item)) : Nat :=
  queue.countP fun bid => decide (choice.gain state bid.2 ≠ bid.1)

variable (choice) in
/-- Every bid may have to be renewed each time an item is taken. -/
def work (state : State) (queue : List (Score × Item)) : Nat :=
  queue.length * (queue.length + 1) + stale choice state queue

variable {top : Score × Item} {queue others : List (Score × Item)}

theorem stale_le : stale choice state queue ≤ queue.length := countP_le_length

theorem work_le : work choice state queue ≤ queue.length * (queue.length + 2) := by
  have few : stale choice state queue ≤ queue.length := stale_le
  rw [work, Nat.mul_add, Nat.mul_add]
  omega

theorem work_perm (isPerm : queue.Perm others) :
    work choice state queue = work choice state others := by
  rw [work, work, stale, stale, isPerm.length_eq, isPerm.countP_eq]

/-- There is less to do without a bid, also if the others are out of date. -/
theorem work_others_lt (state' : State) :
    work choice state' others < work choice state (top :: others) := by
  have few : stale choice state' others ≤ others.length := stale_le
  have more : others.length * (others.length + 1) + 2 * (others.length + 1) =
      (others.length + 1) * (others.length + 1 + 1) := by ring
  rw [work, work, length_cons]
  omega

theorem work_refresh_lt (outdated : choice.gain state top.2 ≠ top.1) :
    work choice state ((choice.gain state top.2, top.2) :: others) <
      work choice state (top :: others) := by
  have older : stale choice state (top :: others) = stale choice state others + 1 :=
    countP_cons_of_pos (decide_eq_true outdated)
  have newer :
      stale choice state ((choice.gain state top.2, top.2) :: others) = stale choice state others :=
    countP_cons_of_neg (by simp)
  rw [work, work, older, newer, length_cons, length_cons]
  exact Nat.lt_succ_self _

end Mnn.Foundation.LazyGreedy
