import Mnn.Foundation.RankedMerging

/-!
# The BPE of the Huggingface tokenizer

A word is kept as the pairs of its neighbouring symbols and the set of the indices
that were merged.  The pairs that are not merged are, in order, the neighbours of
the symbols; a merge changes the nearest of them on both sides.  A pair that has no
rank is given the score `INT_MAX`, so that this rank is the same as none.
-/

variable {before after : List Nat}

namespace Mnn.Llm.Huggingface

open Mnn.Foundation.RankedMerging
open List

variable {W : Type}

/-! ## Model -/

def INT_MAX : Int := 2 ^ 31 - 1

abbrev Pairs (W : Type) := List (List W × List W)

def get_pairs : List W → Pairs W
  | previous :: next :: word => ([previous], [next]) :: get_pairs (next :: word)
  | _ => []

/-- `_left`; nothing is `-1`. -/
def left (merged : Finset Nat) : Nat → Option Nat
  | 0 => none
  | j + 1 => if j ∈ merged then left merged j else some j

/-- `_right`; nothing is the cap. -/
def right (cap : Nat) (merged : Finset Nat) (i : Nat) : Option Nat :=
  (List.range' (i + 1) (cap - (i + 1))).find? fun j => j ∉ merged

def pairAt (pairs : Pairs W) (i : Nat) : List W × List W := pairs.getD i ([], [])

section Ranks

variable (bpe_ranks : List W → List W → Option Int)

def score (pairs : Pairs W) (i : Nat) : Int :=
  (bpe_ranks (pairAt pairs i).1 (pairAt pairs i).2).getD INT_MAX

/-- The lowest score and `to_merge`, which is `-1` if there is none. -/
def findPair (pairs : Pairs W) (merged : Finset Nat) : Int × Option Nat :=
  (List.range pairs.length).foldl
    (fun acc i => if i ∉ merged then lowerOf (score bpe_ranks pairs) acc i else acc)
    (INT_MAX, none)

/-- `if (i is a place) pairs[i] = f(pairs[i]);` -/
def modifyAt (place : Option Nat) (f : List W × List W → List W × List W)
    (pairs : Pairs W) : Pairs W :=
  match place with
  | some i => pairs.modify i f
  | none => pairs

/-- Patch the pairs on both sides of one that was merged. -/
def patch (pairs : Pairs W) (merged : Finset Nat) (to_merge : Nat) : Pairs W :=
  let merge_into := (pairAt pairs to_merge).1 ++ (pairAt pairs to_merge).2
  modifyAt (right pairs.length merged to_merge) (fun pair => (merge_into, pair.2))
    (modifyAt (left merged to_merge) (fun pair => (pair.1, merge_into)) pairs)

def mergeLoop : Nat → Pairs W → Finset Nat → Option (Pairs W × Finset Nat)
  | 0, _, _ => none
  | fuel + 1, pairs, merged =>
    match (findPair bpe_ranks pairs merged).2 with
    | none => some (pairs, merged)
    | some to_merge =>
      let merged := insert to_merge merged
      mergeLoop fuel (patch pairs merged to_merge) merged

/-- The symbols between the pairs that are not merged. -/
def readOut (pairs : Pairs W) (merged : Finset Nat) : List (List W) :=
  (List.range pairs.length).flatMap fun i =>
    if i ∉ merged then
      (if left merged i = none then [(pairAt pairs i).1] else []) ++ [(pairAt pairs i).2]
    else
      []

def bpe (fuel : Nat) (token : List W) : Option (List (List W)) := do
  let (pairs, merged) ← mergeLoop bpe_ranks fuel (get_pairs token) ∅
  if merged.card = pairs.length then
    some [token]
  else
    some (readOut pairs merged)

end Ranks

/-! ## Pairs that are not merged -/

section Live

variable {pairs : Pairs W} {merged : Finset Nat}

/-- The indices of the pairs that are not merged. -/
def live (size : Nat) (merged : Finset Nat) : List Nat :=
  (List.range size).filter fun i => i ∉ merged

theorem left_eq (merged : Finset Nat) (i : Nat) : left merged i = (live i merged).getLast? := by
  induction i with
  | zero => rfl
  | succ j ih =>
    rw [left, live, range_succ, filter_append, filter_cons]
    split_ifs with isMerged <;> simp_all [live]

theorem right_eq (cap : Nat) (merged : Finset Nat) (i : Nat) :
    right cap merged i = ((List.range' (i + 1) (cap - (i + 1))).filter fun j => j ∉ merged).head? :=
  (head?_filter ..).symm

variable {size i t : Nat}

theorem mem_live : i ∈ live size merged ↔ i < size ∧ i ∉ merged := by
  rw [live, mem_filter, mem_range, decide_eq_true_eq]

theorem range_split (inside : t < size) :
    List.range size = List.range t ++ t :: List.range' (t + 1) (size - (t + 1)) := by
  have rest : List.range' t (size - t) = t :: List.range' (t + 1) (size - (t + 1)) := by
    rw [show size - t = size - (t + 1) + 1 by omega, range'_succ]
  have whole := @List.range'_append_1 0 t (size - t)
  rw [Nat.zero_add, rest, show t + (size - t) = size by omega] at whole
  rw [range_eq_range', range_eq_range', whole]

theorem live_split (split : live size merged = before ++ t :: after) :
    t < size ∧ before = live t merged ∧
      after = (List.range' (t + 1) (size - (t + 1))).filter fun j => j ∉ merged := by
  have isMem : t ∈ live size merged := by
    rw [split]
    exact mem_append_right before mem_cons_self
  obtain ⟨inside, notMerged⟩ := mem_live.mp isMem
  rw [live, range_split inside, filter_append,
    filter_cons_of_pos (by simpa using notMerged)] at split
  have notBefore : t ∉ List.filter (fun i => i ∉ merged) (List.range t) := by
    simp
  have notAfter : t ∉ List.filter (fun i => i ∉ merged) (List.range' (t + 1) (size - (t + 1))) := by
    simp only [mem_filter, mem_range'_1]
    omega
  obtain ⟨front, -, back⟩ := (append_cons_inj_of_notMem notBefore notAfter).mp split
  exact ⟨inside, front.symm, back.symm⟩

theorem filter_insert {l : List Nat} (notMem : t ∉ l) :
    (l.filter fun i => i ∉ insert t merged) = l.filter fun i => i ∉ merged := by
  refine filter_congr fun i isMem => ?_
  have different : i ≠ t := fun same => notMem (same ▸ isMem)
  simp [different]

variable {size t : Nat} {before after : List Nat} (split : live size merged = before ++ t :: after)

include split

theorem live_insert : live size (insert t merged) = before ++ after := by
  obtain ⟨inside, rfl, rfl⟩ := live_split split
  rw [live, range_split inside, filter_append, filter_cons_of_neg (by simp),
    filter_insert (by simp), filter_insert (by simp), live]

theorem left_insert : left (insert t merged) t = before.getLast? := by
  obtain ⟨-, rfl, -⟩ := live_split split
  rw [left_eq, live, filter_insert (by simp), live]

theorem right_insert : right size (insert t merged) t = after.head? := by
  obtain ⟨-, -, rfl⟩ := live_split split
  rw [right_eq, filter_insert (by simp)]

theorem before_lt (isMem : i ∈ before) : i < t := by
  obtain ⟨-, rfl, -⟩ := live_split split
  exact (mem_live.mp isMem).1

theorem lt_after (isMem : i ∈ after) : t < i ∧ i < size := by
  obtain ⟨-, -, rfl⟩ := live_split split
  have inside := (mem_filter.mp isMem).1
  rw [mem_range'_1] at inside
  omega

end Live

/-! ## Patches -/

section Patches

variable {pairs : Pairs W} {merged : Finset Nat}

theorem length_modifyAt (place : Option Nat) (f : List W × List W → List W × List W) :
    (modifyAt place f pairs).length = pairs.length := by
  cases place with
  | none => rfl
  | some i => exact length_modify f pairs i

theorem pairAt_modifyAt {place : Option Nat} (inside : ∀ i ∈ place, i < pairs.length)
    (f : List W × List W → List W × List W) (i : Nat) :
    pairAt (modifyAt place f pairs) i =
      if place = some i then f (pairAt pairs i) else pairAt pairs i := by
  cases place with
  | none => rw [if_neg (by simp), modifyAt]
  | some l =>
    simp only [modifyAt, pairAt, getD_eq_getElem?_getD, getElem?_modify, Option.some.injEq]
    split_ifs with same
    · rw [← same, getElem?_eq_getElem (inside l rfl)]
      rfl
    · rw [id_map']

theorem length_patch (t : Nat) : (patch pairs merged t).length = pairs.length := by
  rw [patch, length_modifyAt, length_modifyAt]

variable {t : Nat} {before after : List Nat}
  (split : live pairs.length merged = before ++ t :: after)

include split

/-- A merge changes the last pair before it and the first one behind it. -/
theorem pairAt_patch (i : Nat) :
    pairAt (patch pairs (insert t merged) t) i =
      if after.head? = some i then
        ((pairAt pairs t).1 ++ (pairAt pairs t).2, (pairAt pairs i).2)
      else if before.getLast? = some i then
        ((pairAt pairs i).1, (pairAt pairs t).1 ++ (pairAt pairs t).2)
      else
        pairAt pairs i := by
  have insideLeft : ∀ l ∈ before.getLast?, l < pairs.length := fun l isLast =>
    (before_lt split (mem_of_getLast? isLast)).trans (live_split split).1
  have insideRight : ∀ r ∈ after.head?, r < pairs.length := fun r isHead =>
    (lt_after split (mem_of_head? isHead)).2
  rw [patch, left_insert split, right_insert split,
    pairAt_modifyAt (by rwa [length_modifyAt]), pairAt_modifyAt insideLeft]
  split_ifs with isHead isLast
  · have below := before_lt split (mem_of_getLast? isLast)
    have above := (lt_after split (mem_of_head? isHead)).1
    omega
  · rfl
  · rfl
  · rfl

end Patches

/-! ## Symbols -/

/-- The symbols of the word, whose neighbours are the pairs that are not merged. -/
structure Spells (token : List W) (pairs : Pairs W) (merged : Finset Nat)
    (symbols : List (List W)) : Prop where
  inside : ∀ i ∈ merged, i < pairs.length
  chain : (live pairs.length merged).map (pairAt pairs) = neighbours symbols
  isSome : symbols ≠ []
  whole : symbols.flatten = token

namespace Spells

variable {token : List W} {pairs : Pairs W} {merged : Finset Nat} {symbols : List (List W)}

theorem before_map {pairs' : Pairs W} {front : List (List W)} {x m : List W} (nodup : before.Nodup)
    (isBefore : before.map (pairAt pairs) = neighbours (front ++ [x]))
    (same : ∀ i ∈ before, before.getLast? ≠ some i → pairAt pairs' i = pairAt pairs i)
    (last : ∀ i ∈ before, before.getLast? = some i → pairAt pairs' i = ((pairAt pairs i).1, m)) :
    before.map (pairAt pairs') = neighbours (front ++ [m]) := by
  rcases eq_nil_or_concat front with rfl | ⟨front, z, rfl⟩
  · rw [map_eq_nil_iff.mp isBefore]
    rfl
  · rw [concat_eq_append, append_assoc, singleton_append] at isBefore ⊢
    rw [neighbours_append] at isBefore ⊢
    obtain ⟨others, ends, rfl, isOthers, isEnds⟩ := map_eq_append_iff.mp isBefore
    obtain ⟨l, rfl, isPair⟩ := map_eq_singleton_iff.mp isEnds
    have isLast : (others ++ [l]).getLast? = some l := by simp
    rw [map_append, map_singleton, last l (by simp) isLast, isPair, ← isOthers]
    congr 1
    refine map_congr_left fun i isMem => same i (mem_append_left _ isMem) ?_
    rw [isLast]
    rintro ⟨⟩
    exact disjoint_of_nodup_append nodup isMem mem_cons_self

theorem after_map {pairs' : Pairs W} {back : List (List W)} {y m : List W} (nodup : after.Nodup)
    (isAfter : after.map (pairAt pairs) = neighbours (y :: back))
    (same : ∀ i ∈ after, after.head? ≠ some i → pairAt pairs' i = pairAt pairs i)
    (first : ∀ i ∈ after, after.head? = some i → pairAt pairs' i = (m, (pairAt pairs i).2)) :
    after.map (pairAt pairs') = neighbours (m :: back) := by
  cases back with
  | nil =>
    rw [map_eq_nil_iff.mp isAfter]
    rfl
  | cons z back =>
    obtain ⟨r, others, rfl, isPair, isOthers⟩ := map_eq_cons_iff.mp isAfter
    rw [map_cons, first r mem_cons_self rfl, isPair, neighbours, ← isOthers]
    congr 1
    refine map_congr_left fun i isMem => same i (mem_cons_of_mem r isMem) ?_
    rintro ⟨⟩
    exact (nodup_cons.mp nodup).1 isMem

theorem patched (spells : Spells token pairs merged symbols) {t : Nat}
    (split : live pairs.length merged = before ++ t :: after) :
    ∃ front back, symbols = front ++ (pairAt pairs t).1 :: (pairAt pairs t).2 :: back ∧
      before.map (pairAt pairs) = neighbours (front ++ [(pairAt pairs t).1]) ∧
      after.map (pairAt pairs) = neighbours ((pairAt pairs t).2 :: back) ∧
      Spells token (patch pairs (insert t merged) t) (insert t merged)
        (front ++ ((pairAt pairs t).1 ++ (pairAt pairs t).2) :: back) := by
  have chain := spells.chain
  rw [split, map_append, map_cons] at chain
  obtain ⟨front, back, isSymbols, isBefore, isAfter⟩ := split_of_neighbours chain.symm
  have nodup : (before ++ t :: after).Nodup := by
    rw [← split]
    exact nodup_range.filter _
  obtain ⟨nodupBefore, nodupRest, apart⟩ := nodup_append.mp nodup
  obtain ⟨notAfter, nodupAfter⟩ := nodup_cons.mp nodupRest
  have changed := pairAt_patch split
  refine ⟨front, back, isSymbols, isBefore, isAfter, ?_, ?_, ?_, ?_⟩
  · intro i isMem
    rw [length_patch]
    rcases Finset.mem_insert.mp isMem with rfl | isMem
    · exact (live_split split).1
    · exact spells.inside i isMem
  · rw [length_patch, live_insert split, map_append, neighbours_append]
    congr 1
    · refine before_map nodupBefore isBefore (fun i isMem notLast => ?_) fun i isMem isLast => ?_
      all_goals
        have notHead : after.head? ≠ some i := fun isHead => by
          have below := before_lt split isMem
          have above := (lt_after split (mem_of_head? isHead)).1
          omega
        rw [changed i, if_neg notHead]
      · rw [if_neg notLast]
      · rw [if_pos isLast]
    · refine after_map nodupAfter isAfter (fun i isMem notHead => ?_) fun i isMem isHead => ?_
      · have notLast : before.getLast? ≠ some i := fun isLast => by
          have below := before_lt split (mem_of_getLast? isLast)
          have above := (lt_after split isMem).1
          omega
        rw [changed i, if_neg notHead, if_neg notLast]
      · rw [changed i, if_pos isHead]
  · simp
  · rw [← spells.whole, isSymbols]
    simp only [flatten_append, flatten_cons, append_assoc]

end Spells

/-! ## The lowest pair -/

section Lowest

variable (bpe_ranks : List W → List W → Option Int)

/-- The ranks that are not `INT_MAX`. -/
def ranked (left right : List W) : Option Int :=
  (bpe_ranks left right).filter fun score => score < INT_MAX

variable {bpe_ranks} {token : List W} {pairs : Pairs W} {merged : Finset Nat}
  {symbols : List (List W)} {i fuel : Nat}

theorem ranked_of_score (low : score bpe_ranks pairs i < INT_MAX) :
    ranked bpe_ranks (pairAt pairs i).1 (pairAt pairs i).2 =
      some (score bpe_ranks pairs i) := by
  unfold score at low ⊢
  unfold ranked
  cases isRank : bpe_ranks (pairAt pairs i).1 (pairAt pairs i).2 with
  | none =>
    rw [isRank] at low
    exact absurd low (lt_irrefl INT_MAX)
  | some rank =>
    rw [isRank] at low
    simpa using low

theorem score_of_ranked {rank : Int}
    (isRank : ranked bpe_ranks (pairAt pairs i).1 (pairAt pairs i).2 = some rank) :
    score bpe_ranks pairs i = rank ∧ rank < INT_MAX := by
  rw [ranked, Option.filter_eq_some_iff, decide_eq_true_eq] at isRank
  rw [score, isRank.1]
  exact ⟨rfl, isRank.2⟩

theorem findPair_cases (bpe_ranks : List W → List W → Option Int) (pairs : Pairs W)
    (merged : Finset Nat) :
    (findPair bpe_ranks pairs merged).2 = none ∧
        (∀ i ∈ live pairs.length merged, INT_MAX ≤ score bpe_ranks pairs i) ∨
      ∃ before t after, live pairs.length merged = before ++ t :: after ∧
        (findPair bpe_ranks pairs merged).2 = some t ∧
        score bpe_ranks pairs t < INT_MAX ∧
        (∀ i ∈ before, score bpe_ranks pairs t < score bpe_ranks pairs i) ∧
        ∀ i ∈ after, score bpe_ranks pairs t ≤ score bpe_ranks pairs i := by
  have overLive : findPair bpe_ranks pairs merged =
      (live pairs.length merged).foldl (lowerOf (score bpe_ranks pairs)) (INT_MAX, none) := by
    rw [findPair, live, foldl_filter]
    simp only [decide_eq_true_eq]
  rw [overLive]
  rcases foldl_lowerOf (score bpe_ranks pairs) (INT_MAX, none) (live pairs.length merged) with
    ⟨same, least⟩ | ⟨before, t, after, split, isLowest, low, front, back⟩
  · exact .inl ⟨by rw [same], least⟩
  · exact .inr ⟨before, t, after, split, by rw [isLowest], low, front, back⟩

section

variable (spells : Spells token pairs merged symbols)

include spells

/-- Adjacent symbols are a pair that is not merged, at the same place. -/
theorem Spells.pair_of_split {before after : List (List W)} {left right : List W}
    (split : symbols = before ++ left :: right :: after) :
    ∃ i, (live pairs.length merged)[before.length]? = some i ∧ pairAt pairs i = (left, right) := by
  have chain := congrArg (fun pairs => pairs[before.length]?) spells.chain
  simp only [split, neighbours_split, getElem?_map] at chain
  rw [getElem?_append_right (by simp)] at chain
  simpa using chain

theorem Spells.step {t : Nat} (found : (findPair bpe_ranks pairs merged).2 = some t) :
    ∃ symbols', Spells token (patch pairs (insert t merged) t) (insert t merged) symbols' ∧
      symbols'.length + 1 = symbols.length ∧
      ∀ result, MergesTo (ranked bpe_ranks) symbols' result →
        MergesTo (ranked bpe_ranks) symbols result := by
  rcases findPair_cases bpe_ranks pairs merged with ⟨none, -⟩ |
    ⟨before, t', after, split, found', low, smaller, least⟩
  · rw [none] at found
    cases found
  · rw [found] at found'
    obtain rfl := Option.some.inj found'
    obtain ⟨front, back, isSymbols, isBefore, -, patched⟩ := spells.patched split
    have sameLength : before.length = front.length := by
      have lengths := congrArg List.length isBefore
      simpa using lengths
    refine ⟨_, patched, by simp [isSymbols]; omega, fun result later => ?_⟩
    rw [isSymbols]
    refine .merge ⟨ranked_of_score low, ?_⟩ later
    intro before' left' right' after' other same isOther
    obtain ⟨i, isThere, isPair⟩ := spells.pair_of_split (isSymbols.trans same)
    have isScore : score bpe_ranks pairs i = other := by
      refine (score_of_ranked ?_).1
      rwa [isPair]
    rw [split] at isThere
    rcases lt_trichotomy before'.length before.length with front' | here | back'
    · rw [getElem?_append_left front'] at isThere
      have below := smaller i (mem_of_getElem? isThere)
      exact .inl (isScore ▸ below)
    · rw [here, getElem?_append_right (le_refl _), Nat.sub_self] at isThere
      obtain rfl := Option.some.inj isThere
      exact .inr ⟨isScore, by omega⟩
    · have isAfter : i ∈ after := by
        obtain ⟨place, isPlace⟩ : ∃ place, before'.length = before.length + (place + 1) :=
          ⟨before'.length - before.length - 1, by omega⟩
        rw [isPlace, getElem?_append_right (by omega), Nat.add_sub_cancel_left,
          getElem?_cons_succ] at isThere
        exact mem_of_getElem? isThere
      have below := least i isAfter
      rw [isScore] at below
      rcases below.lt_or_eq with less | same'
      · exact .inl less
      · exact .inr ⟨same', by omega⟩

theorem Spells.done (none : (findPair bpe_ranks pairs merged).2 = none) :
    MergesTo (ranked bpe_ranks) symbols symbols := by
  rcases findPair_cases bpe_ranks pairs merged with ⟨-, high⟩ | ⟨before, t, after, split, found, -⟩
  · refine .done fun before left right after split => ?_
    obtain ⟨i, isThere, isPair⟩ := spells.pair_of_split split
    have above := high i (mem_of_getElem? isThere)
    cases isRank : ranked bpe_ranks left right with
    | none => rfl
    | some rank =>
      rw [← show (pairAt pairs i).1 = left by rw [isPair],
        ← show (pairAt pairs i).2 = right by rw [isPair]] at isRank
      have low := score_of_ranked isRank
      omega
  · rw [none] at found
    cases found

end

theorem mergeLoop_merges {pairs' : Pairs W} {merged' : Finset Nat}
    (spells : Spells token pairs merged symbols)
    (returns : mergeLoop bpe_ranks fuel pairs merged = some (pairs', merged')) :
    ∃ symbols', Spells token pairs' merged' symbols' ∧
      MergesTo (ranked bpe_ranks) symbols symbols' := by
  induction fuel generalizing pairs merged symbols with
  | zero => cases returns
  | succ fuel ih =>
    cases found : (findPair bpe_ranks pairs merged).2 with
    | none =>
      rw [mergeLoop, found] at returns
      obtain ⟨rfl, rfl⟩ := Prod.mk.inj (Option.some.inj returns)
      exact ⟨symbols, spells, spells.done found⟩
    | some t =>
      rw [mergeLoop, found] at returns
      obtain ⟨symbols', spells', -, later⟩ := spells.step found
      obtain ⟨result, spells'', merges⟩ := ih spells' returns
      exact ⟨result, spells'', later result merges⟩

theorem mergeLoop_returns (spells : Spells token pairs merged symbols)
    (enough : symbols.length ≤ fuel) :
    ∃ state, mergeLoop bpe_ranks fuel pairs merged = some state := by
  induction fuel generalizing pairs merged symbols with
  | zero =>
    exact absurd (length_eq_zero_iff.mp (Nat.le_zero.mp enough)) spells.isSome
  | succ fuel ih =>
    cases found : (findPair bpe_ranks pairs merged).2 with
    | none => exact ⟨(pairs, merged), by rw [mergeLoop, found]⟩
    | some t =>
      obtain ⟨symbols', spells', shorter, -⟩ := spells.step found
      rw [mergeLoop, found]
      exact ih spells' (by omega)

end Lowest

/-! ## The result -/

section Result

variable {token : List W} {pairs : Pairs W} {merged : Finset Nat} {symbols : List (List W)}

theorem Spells.live_eq_nil_iff (spells : Spells token pairs merged symbols) :
    live pairs.length merged = [] ↔ merged.card = pairs.length := by
  have subset : merged ⊆ Finset.range pairs.length := fun i isMem =>
    Finset.mem_range.mpr (spells.inside i isMem)
  constructor
  · intro isNil
    have all : merged = Finset.range pairs.length := by
      refine Finset.Subset.antisymm subset fun i isMem => ?_
      by_contra notMerged
      have isLive := mem_live.mpr ⟨Finset.mem_range.mp isMem, notMerged⟩
      rw [isNil] at isLive
      cases isLive
    rw [all, Finset.card_range]
  · intro size
    have all := Finset.eq_of_subset_of_card_le subset (by rw [size, Finset.card_range])
    rw [live, filter_eq_nil_iff]
    intro i isMem
    rw [all]
    simpa using isMem

theorem readOut_eq (pairs : Pairs W) (merged : Finset Nat) :
    readOut pairs merged = (live pairs.length merged).flatMap fun i =>
      (if left merged i = none then [(pairAt pairs i).1] else []) ++ [(pairAt pairs i).2] := by
  unfold readOut live
  induction List.range pairs.length with
  | nil => rfl
  | cons i rest ih =>
    rw [flatMap_cons, ih, filter_cons]
    split_ifs <;> simp_all

/-- The first element of the first pair and the second elements are the symbols. -/
theorem Spells.readOut_eq (spells : Spells token pairs merged symbols)
    (isSome : live pairs.length merged ≠ []) : readOut pairs merged = symbols := by
  obtain ⟨first, rest, isLive⟩ := exists_cons_of_ne_nil isSome
  have chain := spells.chain
  rw [Huggingface.readOut_eq, isLive, flatMap_cons]
  have isFirst : left merged first = none := by
    have split : live pairs.length merged = [] ++ first :: rest := isLive
    rw [left_eq, ← (live_split split).2.1]
    rfl
  have notFirst : ∀ i ∈ rest, left merged i ≠ none := by
    intro i isMem
    obtain ⟨before, after, rfl⟩ := append_of_mem isMem
    have split : live pairs.length merged = (first :: before) ++ i :: after := isLive
    rw [left_eq, ← (live_split split).2.1, Ne, getLast?_eq_none_iff]
    exact cons_ne_nil first before
  have others : rest.flatMap (fun i => (if left merged i = none then [(pairAt pairs i).1] else [])
      ++ [(pairAt pairs i).2]) = rest.map fun i => (pairAt pairs i).2 := by
    rw [map_eq_flatMap]
    refine flatMap_congr fun i isMem => ?_
    rw [if_neg (notFirst i isMem), nil_append]
  obtain ⟨x, tail, rfl⟩ := exists_cons_of_ne_nil spells.isSome
  have seconds := map_snd_neighbours x tail
  rw [← chain, isLive, map_map, map_cons] at seconds
  rw [isLive, map_cons] at chain
  rw [if_pos isFirst, others, ← seconds]
  cases tail with
  | nil => cases chain
  | cons y tail =>
    have isPair := (List.cons.inj chain).1
    rw [Function.comp_apply, isPair]
    rfl

theorem pairAt_range (pairs : Pairs W) : (List.range pairs.length).map (pairAt pairs) = pairs := by
  refine ext_getElem (by simp) fun i inside _ => ?_
  rw [length_map, length_range] at inside
  rw [getElem_map, getElem_range, pairAt, getD_eq_getElem?_getD,
    getElem?_eq_getElem inside, Option.getD_some]

theorem get_pairs_eq (word : List W) : get_pairs word = neighbours (word.map fun c => [c]) := by
  fun_induction get_pairs word with
  | case1 previous next word ih => rw [ih]; rfl
  | case2 word short =>
    match word, short with
    | [], _ => rfl
    | [_], _ => rfl
    | previous :: next :: word, short => exact absurd rfl (short previous next word)

theorem spells_start (token : List W) (isSome : token ≠ []) :
    Spells token (get_pairs token) ∅ (token.map fun c => [c]) where
  inside _ isMem := absurd isMem (Finset.notMem_empty _)
  chain := by
    have all : live (get_pairs token).length ∅ = List.range (get_pairs token).length := by
      simp [live]
    rw [all, pairAt_range, get_pairs_eq]
  isSome := by simpa using isSome
  whole := flatMap_singleton' token

/-- What is read out are the symbols, and the empty word is one piece. -/
theorem Spells.result (spells : Spells token pairs merged symbols) :
    (if merged.card = pairs.length then some [token] else some (readOut pairs merged)) =
      some symbols := by
  split_ifs with all
  · have isNil := spells.live_eq_nil_iff.mpr all
    have chain := spells.chain
    rw [isNil] at chain
    have short := congrArg List.length chain
    rw [map_nil, length_nil, length_neighbours] at short
    obtain ⟨x, tail, rfl⟩ := exists_cons_of_ne_nil spells.isSome
    have noTail : tail = [] := length_eq_zero_iff.mp (by simpa using short.symm)
    have whole := spells.whole
    rw [noTail, flatten_singleton] at whole
    rw [noTail, whole]
  · rw [spells.readOut_eq (mt spells.live_eq_nil_iff.mp all)]

/-- The result is that of merging the symbols of the lowest rank below `INT_MAX`
until there are none, but for the empty word, which is one empty piece. -/
theorem bpe_merges (bpe_ranks : List W → List W → Option Int) (token : List W) :
    (∃ fuel result, bpe bpe_ranks fuel token = some result) ∧
      ∀ fuel result, bpe bpe_ranks fuel token = some result → result.flatten = token ∧
          if token = [] then
            result = [[]]
          else
            MergesTo (ranked bpe_ranks) (token.map fun c => [c]) result := by
  by_cases isNil : token = []
  · subst isNil
    refine ⟨⟨1, [[]], rfl⟩, fun fuel result returns => ?_⟩
    cases fuel with
    | zero => cases returns
    | succ fuel =>
      cases returns
      exact ⟨rfl, rfl⟩
  · have start := spells_start token isNil
    constructor
    · obtain ⟨⟨pairs, merged⟩, returns⟩ :=
        @mergeLoop_returns W bpe_ranks _ _ _ _ _ start (le_refl _)
      obtain ⟨symbols, spells, -⟩ := mergeLoop_merges start returns
      exact ⟨_, symbols, by rw [bpe, returns]; exact spells.result⟩
    · intro fuel result returns
      rw [bpe, Option.bind_eq_bind, Option.bind_eq_some_iff] at returns
      obtain ⟨⟨pairs, merged⟩, loops, returns⟩ := returns
      obtain ⟨symbols, spells, merges⟩ := mergeLoop_merges start loops
      obtain rfl := Option.some.inj (spells.result.symm.trans returns)
      exact ⟨spells.whole, by rw [if_neg isNil]; exact merges⟩

/-- A pair of the rank `INT_MAX` is not merged. -/
theorem not_merges_intMax :
    ¬∃ fuel result, bpe (fun _ _ : List Nat => some INT_MAX) fuel [0, 1] = some result ∧
        MergesTo (fun _ _ : List Nat => some INT_MAX) [[0], [1]] result := by
  rintro ⟨fuel, result, returns, merges⟩
  have kept : result = [[0], [1]] := by
    cases fuel with
    | zero => cases returns
    | succ fuel =>
      cases returns
      rfl
  have lowest : IsLowest (fun _ _ : List Nat => some INT_MAX) [] [0] [1] [] INT_MAX :=
    ⟨rfl, fun _ _ _ _ _ _ isOther => .inr ⟨Option.some.inj isOther, Nat.zero_le _⟩⟩
  have merged : MergesTo (fun _ _ : List Nat => some INT_MAX) [[0], [1]] [[0, 1]] := by
    refine .merge lowest (.done fun before left right after split => ?_)
    have lengths := congrArg List.length split
    simp at lengths
    omega
  have same := merges.unique merged
  rw [kept] at same
  exact absurd same (by decide)

end Result

end Mnn.Llm.Huggingface
