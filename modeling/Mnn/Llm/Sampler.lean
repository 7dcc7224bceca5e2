import Mnn.Foundation.TopSelection

/-!
# The sampler's choice of the largest logits

`topKSubset` scans the logits once with a sorted window of the largest ones, and skips the
blocks which cannot change it.  The sampler uses it in place of the first steps of its
pipeline when these are known to leave the logits alone.
-/

namespace Mnn.Llm.Sampler

open Mnn.Foundation.TopSelection
open List
open Function

section TopKSubset

variable {α : Type} [LinearOrder α]

/-- The arrays `vals` and `idxs`. -/
abbrev Window (α : Type) := Nat → α × Nat

/-- The loop which moves the smaller values up from `j` and stores a value below them. -/
def insertValue (v : α) (i : Nat) : Nat → Window α → Window α
  | 0, window => update window 0 (v, i)
  | j + 1, window =>
    if (window j).1 < v then insertValue v i j (update window (j + 1) (window j))
    else update window (j + 1) (v, i)

/-- The first loop after `i` rounds. -/
def fillWindow (x : Nat → α) (window : Window α) : Nat → Window α
  | 0 => window
  | i + 1 => insertValue (x i) i i (fillWindow x window i)

/-- One round of the scan.  The threshold is the last value of the window at any time. -/
def offerValue (x : Nat → α) (k : Nat) (window : Window α) (i : Nat) : Window α :=
  if (window (k - 1)).1 < x i then insertValue (x i) i (k - 1) window else window

/-- The largest of sixteen values: `vmaxq_f32` on lanes of four, `vmaxvq_f32` over them. -/
def blockMax (x : Nat → α) (i : Nat) : α :=
  let m0 lane := max (x (i + lane)) (x (i + 4 + lane))
  let m1 lane := max (x (i + 8 + lane)) (x (i + 12 + lane))
  let m lane := max (m0 lane) (m1 lane)
  max (max (m 0) (m 1)) (max (m 2) (m 3))

/-- The scan in blocks, with the place where it stops. -/
def scanBlocks (x : Nat → α) (n k i : Nat) (window : Window α) : Nat × Window α :=
  if i + 16 ≤ n then
    scanBlocks x n k (i + 16) (if blockMax x i ≤ (window (k - 1)).1 then window
      else (List.range' i 16).foldl (offerValue x k) window)
  else (i, window)
termination_by n - i

def topKSubset (aarch64 : Bool) (x : Nat → α) (n k : Nat) (window : Window α) : Window α :=
  let filled := fillWindow x window k
  let scanned := if aarch64 then scanBlocks x n k k filled else (k, filled)
  (List.range' scanned.1 (n - scanned.1)).foldl (offerValue x k) scanned.2

/-- Larger values come first, and lower indices among equal ones. -/
def Before (first second : α × Nat) : Prop :=
  second.1 < first.1 ∨ first.1 = second.1 ∧ first.2 < second.2

/-- The first places of the window hold the first of the values seen. -/
structure Best (x : Nat → α) (seen size : Nat) (window : Window α) : Prop where
  entry : ∀ a < size, (window a).2 < seen ∧ (window a).1 = x (window a).2
  descends : ∀ a b, a < b → b < size → Before (window a) (window b)
  best : ∀ i < seen, (∃ a < size, (window a).2 = i) ∨ ∀ a < size, Before (window a) (x i, i)

variable {x : Nat → α} {window : Window α} {seen size n k i : Nat}

theorem Before.le {first second : α × Nat} (before : Before first second) : second.1 ≤ first.1 := by
  rcases before with less | ⟨same, _⟩
  · exact less.le
  · exact same.ge

/-- The value is stored at a place `p`, below the smaller ones. -/
theorem insertValue_spec (v : α) (i j : Nat) (window : Window α) :
    ∃ p ≤ j, (∀ a < p, insertValue v i j window a = window a) ∧
      insertValue v i j window p = (v, i) ∧
      (∀ a, p ≤ a → a < j → (window a).1 < v ∧ insertValue v i j window (a + 1) = window a) ∧
      (∀ a, j < a → insertValue v i j window a = window a) ∧
      (0 < p → v ≤ (window (p - 1)).1) := by
  induction j generalizing window with
  | zero =>
    refine ⟨0, le_rfl, by simp, by simp [insertValue], by simp, fun a more => ?_, by simp⟩
    rw [insertValue, update_of_ne more.ne']
  | succ j ih =>
    rw [insertValue]
    split
    next less =>
      obtain ⟨p, pLe, low, isStored, high, beyond, stops⟩ :=
        ih (update window (j + 1) (window j))
      have old : ∀ a ≤ j, update window (j + 1) (window j) a = window a :=
        fun a aLe => update_of_ne (by omega) ..
      refine ⟨p, by omega, fun a aLess => ?_, isStored, fun a pLe' aLess => ?_, fun a more => ?_,
        fun positive => ?_⟩
      · rw [low a aLess, old a (by omega)]
      · rcases Nat.lt_succ_iff_lt_or_eq.mp aLess with aLess | rfl
        · rw [← old a (by omega)]
          exact high a pLe' aLess
        · rw [beyond (a + 1) (by omega), update_self]
          exact ⟨less, rfl⟩
      · rw [beyond a (by omega), update_of_ne (by omega)]
      · rw [← old (p - 1) (by omega)]
        exact stops positive
    next notLess =>
      refine ⟨j + 1, le_rfl, fun a aLess => update_of_ne (by omega) ..,
        update_self .., fun a _ _ => by omega,
        fun a more => update_of_ne (by omega) .., fun _ => not_lt.mp notLess⟩

/-- A value is stored among the first `j` if all others are smaller. -/
theorem Best.insertValue {j : Nat} (best : Best x seen size window) (le : j ≤ size)
    (others : ∀ i < seen, (∀ a < j, (window a).2 ≠ i) → x i < x seen) :
    Best x (seen + 1) (j + 1) (insertValue (x seen) seen j window) := by
  obtain ⟨p, pLe, low, isStored, high, -, stops⟩ := insertValue_spec (x seen) seen j window
  have cases' : ∀ a < j + 1, (a < p ∧ Sampler.insertValue (x seen) seen j window a = window a) ∨
      a = p ∨ ∃ b, a = b + 1 ∧ p ≤ b ∧ b < j ∧ (window b).1 < x seen ∧
        Sampler.insertValue (x seen) seen j window a = window b := by
    intro a aLess
    rcases lt_trichotomy a p with less | same | more
    · exact Or.inl ⟨less, low a less⟩
    · exact Or.inr (Or.inl same)
    · obtain ⟨b, rfl⟩ : ∃ b, a = b + 1 := ⟨a - 1, by omega⟩
      have isHigh := high b (by omega) (by omega)
      exact Or.inr (Or.inr ⟨b, rfl, by omega, by omega, isHigh⟩)
  have before : ∀ a < p, Before (window a) (x seen, seen) := by
    intro a aLess
    have atLeast : x seen ≤ (window a).1 := by
      rcases lt_or_ge a (p - 1) with less | ge
      · exact (stops (by omega)).trans (best.descends a (p - 1) less (by omega)).le
      · rw [show a = p - 1 by omega]
        exact stops (by omega)
    rcases atLeast.lt_or_eq with less | same
    · exact Or.inl less
    · exact Or.inr ⟨same.symm, (best.entry a (by omega)).1⟩
  refine ⟨fun a aLess => ?_, fun a b aLess bLess => ?_, fun i iLess => ?_⟩
  · rcases cases' a aLess with ⟨less, isEntry⟩ | rfl | ⟨b, -, -, bLess, -, isEntry⟩
    · rw [isEntry]
      exact ⟨(best.entry a (by omega)).1.trans (Nat.lt_succ_self _), (best.entry a (by omega)).2⟩
    · rw [isStored]
      exact ⟨Nat.lt_succ_self _, rfl⟩
    · rw [isEntry]
      exact ⟨(best.entry b (by omega)).1.trans (Nat.lt_succ_self _), (best.entry b (by omega)).2⟩
  · rcases cases' a (by omega) with ⟨less, isEntry⟩ | rfl | ⟨a', rfl, pLe', _, _, isEntry⟩
    · rw [isEntry]
      rcases cases' b bLess with ⟨_, isEntry'⟩ | rfl | ⟨b', rfl, _, _, _, isEntry'⟩
      · rw [isEntry']
        exact best.descends a b aLess (by omega)
      · rw [isStored]
        exact before a less
      · rw [isEntry']
        exact best.descends a b' (by omega) (by omega)
    · rw [isStored]
      rcases cases' b bLess with ⟨less, _⟩ | rfl | ⟨b', rfl, _, _, smaller, isEntry'⟩
      · omega
      · omega
      · rw [isEntry']
        exact Or.inl smaller
    · rw [isEntry]
      rcases cases' b bLess with ⟨less, _⟩ | rfl | ⟨b', rfl, _, _, _, isEntry'⟩
      · omega
      · omega
      · rw [isEntry']
        exact best.descends a' b' (by omega) (by omega)
  · rcases Nat.lt_succ_iff_lt_or_eq.mp iLess with iLess | rfl
    · by_cases isIn : ∃ a < j, (window a).2 = i
      · obtain ⟨a, aLess, isIndex⟩ := isIn
        left
        rcases lt_or_ge a p with less | ge
        · exact ⟨a, by omega, by rw [low a less, isIndex]⟩
        · exact ⟨a + 1, by omega, by rw [(high a ge aLess).2, isIndex]⟩
      · right
        push Not at isIn
        have smaller := others i iLess isIn
        have olds : ∀ a < j, Before (window a) (x i, i) := by
          intro a aLess
          rcases best.best i iLess with ⟨b, bLess, rfl⟩ | all
          · have between : a < b := by
              by_contra notLess
              exact isIn b (by omega) rfl
            rw [← (best.entry b bLess).2]
            exact best.descends a b between bLess
          · exact all a (by omega)
        intro a aLess
        rcases cases' a aLess with ⟨less, isEntry⟩ | rfl | ⟨b, -, -, bLess, -, isEntry⟩
        · rw [isEntry]
          exact olds a (by omega)
        · rw [isStored]
          exact Or.inl smaller
        · rw [isEntry]
          exact olds b bLess
    · exact Or.inl ⟨p, by omega, by rw [isStored]⟩

theorem Best.keep (best : Best x seen size window) (positive : 0 < size)
    (notMore : x seen ≤ (window (size - 1)).1) : Best x (seen + 1) size window := by
  refine ⟨fun a aLess => ⟨(best.entry a aLess).1.trans (Nat.lt_succ_self _),
    (best.entry a aLess).2⟩, best.descends, fun i iLess => ?_⟩
  rcases Nat.lt_succ_iff_lt_or_eq.mp iLess with iLess | rfl
  · exact best.best i iLess
  · right
    intro a aLess
    have atLeast : x i ≤ (window a).1 := by
      rcases lt_or_ge a (size - 1) with less | ge
      · exact notMore.trans (best.descends a (size - 1) less (by omega)).le
      · rwa [show a = size - 1 by omega]
    rcases atLeast.lt_or_eq with less | same
    · exact Or.inl less
    · exact Or.inr ⟨same.symm, (best.entry a aLess).1⟩

theorem exists_fillWindow (x : Nat → α) (window : Window α) {i other : Nat} (less : other < i) :
    ∃ a < i, (fillWindow x window i a).2 = other := by
  induction i with
  | zero => cases less
  | succ i ih =>
    rw [fillWindow]
    obtain ⟨p, pLe, low, isStored, high, -⟩ := insertValue_spec (x i) i i (fillWindow x window i)
    rcases Nat.lt_succ_iff_lt_or_eq.mp less with less | rfl
    · obtain ⟨a, aLess, isIndex⟩ := ih less
      rcases lt_or_ge a p with less | ge
      · exact ⟨a, by omega, by rw [low a less, isIndex]⟩
      · exact ⟨a + 1, by omega, by rw [(high a ge aLess).2, isIndex]⟩
    · exact ⟨p, by omega, by rw [isStored]⟩

theorem best_fillWindow (x : Nat → α) (window : Window α) (i : Nat) :
    Best x i i (fillWindow x window i) := by
  induction i with
  | zero => exact ⟨by simp, by simp, by simp⟩
  | succ i ih =>
    refine ih.insertValue le_rfl fun other isLess missing => ?_
    obtain ⟨a, aLess, isIndex⟩ := exists_fillWindow x window isLess
    exact absurd isIndex (missing a aLess)

theorem Best.offerValue (best : Best x seen k window) (positive : 0 < k) :
    Best x (seen + 1) k (offerValue x k window seen) := by
  rw [Sampler.offerValue]
  split
  next less =>
    have inserted := best.insertValue (Nat.sub_le k 1) fun i iLess missing => ?_
    · rwa [Nat.sub_add_cancel positive] at inserted
    · rcases best.best i iLess with ⟨a, aLess, rfl⟩ | all
      · have isLast : a = k - 1 := by
          by_contra differs
          exact missing a (by omega) rfl
        rwa [← (best.entry a aLess).2, isLast]
      · exact (all (k - 1) (by omega)).le.trans_lt less
  next notLess => exact best.keep positive (not_lt.mp notLess)

theorem Best.scan (best : Best x i k window) (positive : 0 < k) (count : Nat) :
    Best x (i + count) k ((List.range' i count).foldl (Sampler.offerValue x k) window) := by
  induction count generalizing i window with
  | zero => exact best
  | succ count ih =>
    rw [range'_succ, foldl_cons, add_comm count, ← add_assoc]
    exact ih (best.offerValue positive)

theorem Best.skip (best : Best x i k window) (positive : 0 < k) {count : Nat}
    (notMore : ∀ u < count, x (i + u) ≤ (window (k - 1)).1) : Best x (i + count) k window := by
  induction count with
  | zero => exact best
  | succ count ih =>
    exact (ih fun u uLess => notMore u (by omega)).keep positive
      (notMore count (Nat.lt_succ_self _))

theorem le_blockMax (x : Nat → α) (i : Nat) {u : Nat} (less : u < 16) :
    x (i + u) ≤ blockMax x i := by
  simp only [blockMax, le_max_iff, add_assoc]
  interval_cases u <;> simp only [Nat.reduceAdd, add_zero, le_refl, true_or, or_true]

theorem best_scanBlocks (best : Best x i k window) (positive : 0 < k) (le : i ≤ n) :
    Best x (scanBlocks x n k i window).1 k (scanBlocks x n k i window).2 ∧
      (scanBlocks x n k i window).1 ≤ n := by
  induction i, window using scanBlocks.induct x n k with
  | case1 i window whole ih =>
    rw [scanBlocks, if_pos whole]
    refine ih ?_ whole
    split
    next notMore =>
      exact best.skip positive fun u uLess => (le_blockMax x i uLess).trans notMore
    next => exact best.scan positive 16
  | case2 i window notWhole =>
    rw [scanBlocks, if_neg notWhole]
    exact ⟨best, le⟩

theorem best_topKSubset (aarch64 : Bool) (x : Nat → α) (window : Window α) (positive : 0 < k)
    (le : k ≤ n) : Best x n k (topKSubset aarch64 x n k window) := by
  have filled := best_fillWindow x window k
  have finish : ∀ {i : Nat} {scanned : Window α}, Best x i k scanned → i ≤ n →
      Best x n k ((List.range' i (n - i)).foldl (offerValue x k) scanned) := by
    intro i scanned best iLe
    have ended := best.scan positive (n - i)
    rwa [Nat.add_sub_cancel' iLe] at ended
  rw [topKSubset]
  cases aarch64 with
  | false => exact finish filled le
  | true =>
    have blocks := best_scanBlocks filled positive le
    exact finish blocks.1 blocks.2

theorem Best.selected (best : Best x seen size window) :
    Selected x (List.range seen) ((List.range size).map fun i => (window i).2) := by
  have nodup : ((List.range size).map fun i => (window i).2).Nodup := by
    refine List.Nodup.map_on (fun a aMem b bMem same => ?_) nodup_range
    rw [mem_range] at aMem bMem
    have apart : ∀ a b, a < b → b < size → (window a).2 ≠ (window b).2 := by
      intro a b less bLess same
      rcases best.descends a b less bLess with smaller | ⟨-, lower⟩
      · rw [(best.entry a (by omega)).2, (best.entry b bLess).2, same] at smaller
        exact lt_irrefl _ smaller
      · exact lower.ne same
    rcases lt_trichotomy a b with less | same' | more
    · exact absurd same (apart a b less bMem)
    · exact same'
    · exact absurd same.symm (apart b a more aMem)
  refine ⟨(List.range seen).filter fun i => decide (∀ a < size, (window a).2 ≠ i), ?_, ?_⟩
  · refine (perm_ext_iff_of_nodup (nodup_append.mpr ⟨nodup,
      nodup_range.filter _, fun a aMem b bMem same => ?_⟩) nodup_range).mpr fun i => ?_
    · obtain ⟨place, isPlace, rfl⟩ := mem_map.mp aMem
      rw [mem_filter, decide_eq_true_iff] at bMem
      exact bMem.2 place (mem_range.mp isPlace) same
    · rw [mem_append, mem_map, mem_filter, decide_eq_true_iff, mem_range]
      constructor
      · rintro (⟨place, isPlace, rfl⟩ | ⟨iLess, -⟩)
        · exact (best.entry place (mem_range.mp isPlace)).1
        · exact iLess
      · intro iLess
        by_cases isIn : ∃ a < size, (window a).2 = i
        · obtain ⟨place, isPlace, isIndex⟩ := isIn
          exact Or.inl ⟨place, mem_range.mpr isPlace, isIndex⟩
        · push Not at isIn
          exact Or.inr ⟨iLess, isIn⟩
  · intro first isFirst second isSecond
    obtain ⟨place, isPlace, rfl⟩ := mem_map.mp isFirst
    rw [mem_range] at isPlace
    rw [mem_filter, decide_eq_true_iff, mem_range] at isSecond
    rcases best.best second isSecond.1 with ⟨a, aLess, isIndex⟩ | all
    · exact absurd isIndex (isSecond.2 a aLess)
    · rw [← (best.entry place isPlace).2]
      exact (all place isPlace).le

/-- The pairs agree but for the choice among those with the least logit. -/
def SameUpToTies (first second : List (Nat × α)) : Prop :=
  (first.map Prod.snd).Perm (second.map Prod.snd) ∧
    ∀ pair, (∃ least ∈ first, least.2 < pair.2) → (pair ∈ first ↔ pair ∈ second)

theorem sameUpToTies_of_selected {ptr : Nat → α} {lastDim : Nat} {first second : List Nat}
    (isFirst : Selected ptr (List.range lastDim) first)
    (isSecond : Selected ptr (List.range lastDim) second) (same : first.length = second.length) :
    SameUpToTies (first.map fun i => (i, ptr i)) (second.map fun i => (i, ptr i)) := by
  refine ⟨?_, ?_⟩
  · rw [map_map, map_map]
    exact isFirst.perm_scores isSecond same
  · rintro ⟨token, logit⟩ ⟨least, isLeast, less⟩
    obtain ⟨token', isToken', rfl⟩ := mem_map.mp isLeast
    have agrees : ptr token = logit → (token ∈ first ↔ token ∈ second) := by
      rintro rfl
      exact isFirst.mem_iff isSecond same isToken' less
    simp only [mem_map, Prod.mk.injEq]
    constructor
    · rintro ⟨_, member, rfl, isLogit⟩
      exact ⟨_, (agrees isLogit).mp member, rfl, isLogit⟩
    · rintro ⟨_, member, rfl, isLogit⟩
      exact ⟨_, (agrees isLogit).mpr member, rfl, isLogit⟩

end TopKSubset

section Pipeline

variable {α : Type} [LinearOrder α] [Zero α] [One α] [Add α] [Sub α] [Mul α] [Div α] [NatCast α]

/-- The settings which the steps up to `topK` read. -/
structure SamplerConfig (α : Type) where
  type : String
  topK : Int
  repetition_penalty : α
  presence_penalty : α
  frequency_penalty : α
  penalty_window : Nat
  ngram : Nat
  ngram_factor : α
  max_penalty : α
  mixedSamplers : List String
  logit_bias : List (Int × α)
  banned_tokens : List Int

structure SamplerState (α : Type) where
  indices : List Nat
  logits : List α
  probs : List α
  vocab_size : Nat
  is_subset : Bool
  selected_token : Int

inductive SamplerStep
  | logitBias
  | bannedTokens
  | penalty
  | topK
  | topP
  | minP
  | tfs
  | typical
  | select
deriving DecidableEq

namespace SamplerConfig

variable (config : SamplerConfig α)

def isPenaltyActive : Bool :=
  decide (1 < config.repetition_penalty) || decide (0 < config.presence_penalty) ||
    decide (0 < config.frequency_penalty) || decide (1 < config.ngram_factor)

end SamplerConfig

/-- The steps of a name.  `greedy` and `temperature` are handled by `stepSelect`. -/
def addStep (name : String) : List SamplerStep :=
  if name = "penalty" then [.penalty]
  else if name = "topK" then [.topK]
  else if name = "topP" then [.topP]
  else if name = "minP" ∨ name = "min_p" then [.minP]
  else if name = "tfs" then [.tfs]
  else if name = "typical" then [.typical]
  else []

/-- The pipeline which `buildPipeline` makes. -/
def buildPipeline (config : SamplerConfig α) : List SamplerStep := (if config.type = "mixed" then
    (if config.logit_bias.isEmpty then [] else [.logitBias]) ++
      (if config.banned_tokens.isEmpty then [] else [.bannedTokens]) ++
      config.mixedSamplers.flatMap addStep
  else if config.type = "greedy" then []
  else addStep config.type) ++ [.select]

/-- The flag which `buildPipeline` sets. -/
def mTopKPrefilter (config : SamplerConfig α) : Bool :=
  config.type = "mixed" && decide (0 < config.topK) && config.logit_bias.isEmpty &&
    config.banned_tokens.isEmpty &&
    match config.mixedSamplers with
    | "topK" :: _ => true
    | "penalty" :: "topK" :: _ => !config.isPenaltyActive
    | _ => false

namespace SamplerState

/-- Where the logit of a token is. -/
def position (state : SamplerState α) (token : Int) : Option Nat :=
  if state.is_subset then
    (List.range state.indices.length).reverse.find? fun i =>
      decide ((state.indices.getD i 0 : Int) = token)
  else if 0 ≤ token ∧ token < state.logits.length then some token.toNat
  else none

def invalidateProbs (state : SamplerState α) : SamplerState α := { state with probs := [] }

/-- The logit of a token is replaced. -/
def modify (state : SamplerState α) (token : Int) (f : α → α) : SamplerState α :=
  match state.position token with
  | none => state
  | some i => { state with logits := state.logits.modify i f }

/-- The tokens with their logits. -/
def pairs (state : SamplerState α) : List (Nat × α) :=
  (if state.is_subset then state.indices else List.range state.logits.length).zip state.logits

end SamplerState

def stepLogitBias (config : SamplerConfig α) (state : SamplerState α) : SamplerState α :=
  if config.logit_bias.isEmpty then state
  else (config.logit_bias.foldl (fun state kv => state.modify kv.1 (· + kv.2)) state).invalidateProbs

def stepBannedTokens (NEG_INF : α) (config : SamplerConfig α) (state : SamplerState α) :
    SamplerState α :=
  if config.banned_tokens.isEmpty then state
  else
    (config.banned_tokens.foldl (fun state tok => state.modify tok fun _ => NEG_INF)
      state).invalidateProbs

/-- The factor for the n-gram which would be repeated by the token at `i` of the history. -/
def ngram_penalty (config : SamplerConfig α) (repPenalty : α) (prev : List Int) (i : Nat) : α :=
  let ngram_info := prev.reverse.take (config.ngram - 1)
  let matches_ := (List.range (min (config.ngram - 1) i)).takeWhile fun idx =>
    decide (prev[i - 1 - idx]? = ngram_info[idx]?)
  matches_.foldl (fun penalty idx =>
    if idx + 1 = ngram_info.length then config.max_penalty else penalty * config.ngram_factor)
    repPenalty

/-- The entry of `penalty_map` for a token which the window of the history holds. -/
def penalty_map (config : SamplerConfig α) (prev : List Int) (start : Nat) (token : Int) : α :=
  let repPenalty := min config.repetition_penalty config.max_penalty
  let penalizeNgram := decide (1 < config.ngram_factor) && decide (config.ngram ≤ prev.length)
  ((List.range' start (prev.length - start)).filter fun i => decide (prev[i]? = some token)).foldl
    (fun penalty i =>
      if penalizeNgram ∧ penalty < ngram_penalty config repPenalty prev i then
        ngram_penalty config repPenalty prev i
      else penalty)
    repPenalty

def stepPenalty (config : SamplerConfig α) (prev : List Int) (state : SamplerState α) :
    SamplerState α :=
  if !config.isPenaltyActive then state
  else if prev.isEmpty then state
  else
    let start := if 0 < config.penalty_window ∧ config.penalty_window < prev.length then
      prev.length - config.penalty_window else 0
    ((prev.drop start).dedup.foldl (fun state token =>
      state.modify token fun logit =>
        let penalty := penalty_map config prev start token
        let scaled :=
          if 1 < penalty then if 0 ≤ logit then logit / penalty else logit * penalty else logit
        let lowered := scaled - config.presence_penalty
        if 0 < config.frequency_penalty then
          lowered - config.frequency_penalty * ((prev.drop start).count token : Nat)
        else lowered) state).invalidateProbs

/-- What `std::nth_element` promises of its result. -/
structure IsNthElement (α : Type) [LinearOrder α]
    (nth_element : (Nat → Nat → Bool) → Nat → List Nat → List Nat) : Prop where
  perm : ∀ (key : Nat → α) (place : Nat) (items : List Nat),
    (nth_element (fun a b => decide (key b < key a)) place items).Perm items
  parts : ∀ (key : Nat → α) (place : Nat) (items : List Nat),
    ∀ first ∈ (nth_element (fun a b => decide (key b < key a)) place items).take place,
    ∀ second ∈ (nth_element (fun a b => decide (key b < key a)) place items).drop place,
      key second ≤ key first

variable (nth_element : (Nat → Nat → Bool) → Nat → List Nat → List Nat)

def stepTopK (config : SamplerConfig α) (state : SamplerState α) : SamplerState α :=
  let size := state.logits.length
  if (size : Int) ≤ config.topK then state
  else
    let K := config.topK.toNat
    let idx := nth_element
      (fun a b => decide (state.logits.getD b 0 < state.logits.getD a 0)) K (List.range size)
    { state with
      logits := (idx.take K).map fun i => state.logits.getD i 0
      indices := (idx.take K).map fun i => if state.is_subset then state.indices.getD i 0 else i
      is_subset := true
      probs := [] }

/-- A step.  Those which need probabilities are `later`. -/
def SamplerStep.run (NEG_INF : α) (later : SamplerStep → SamplerState α → SamplerState α)
    (config : SamplerConfig α) (history_tokens : List Int) :
    SamplerStep → SamplerState α → SamplerState α
  | logitBias => stepLogitBias config
  | bannedTokens => stepBannedTokens NEG_INF config
  | penalty => stepPenalty config history_tokens
  | topK => stepTopK nth_element config
  | step => later step

/-- `createState` on all `lastDim` logits. -/
def createState (ptr : Nat → α) (lastDim : Nat) : SamplerState α where
  indices := []
  logits := (List.range lastDim).map ptr
  probs := []
  vocab_size := lastDim
  is_subset := false
  selected_token := -1

/-- The state with which `sample` enters the pipeline. -/
def sampleState (aarch64 : Bool) (config : SamplerConfig α) (ptr : Nat → α) (lastDim : Nat)
    (window : Window α) : SamplerState α :=
  if mTopKPrefilter config ∧ config.topK < lastDim then
    let k := config.topK.toNat
    let filled := topKSubset aarch64 ptr lastDim k window
    { indices := (List.range k).map fun i => (filled i).2
      logits := (List.range k).map fun i => (filled i).1
      probs := []
      vocab_size := lastDim
      is_subset := true
      selected_token := -1 }
  else createState ptr lastDim

/-- The state after the pipeline's first `topK` step. -/
def reaching (NEG_INF : α) (later : SamplerStep → SamplerState α → SamplerState α)
    (config : SamplerConfig α) (history_tokens : List Int) (state : SamplerState α) :
    SamplerState α :=
  let steps := (buildPipeline config).takeWhile fun step => decide (step ≠ SamplerStep.topK)
  (steps ++ [SamplerStep.topK]).foldl
    (fun state step => step.run nth_element NEG_INF later config history_tokens state) state

variable {nth_element : (Nat → Nat → Bool) → Nat → List Nat → List Nat} {config : SamplerConfig α}
  {ptr : Nat → α} {lastDim : Nat}

variable (nth_element) in
/-- With the flag on, the pipeline changes nothing before its first `topK` step. -/
theorem reaching_of_prefilter (prefilter : mTopKPrefilter config = true) (NEG_INF : α)
    (later : SamplerStep → SamplerState α → SamplerState α) (history_tokens : List Int)
    (state : SamplerState α) :
    SamplerStep.topK ∈ buildPipeline config ∧
      reaching nth_element NEG_INF later config history_tokens state =
        stepTopK nth_element config state := by
  simp only [mTopKPrefilter, Bool.and_eq_true, decide_eq_true_eq] at prefilter
  obtain ⟨⟨⟨⟨mixed, -⟩, noBias⟩, noBanned⟩, leads⟩ := prefilter
  rw [reaching, buildPipeline, if_pos mixed, if_pos noBias, if_pos noBanned]
  split at leads
  next rest isList =>
    rw [isList]
    exact ⟨by simp [addStep], by simp [addStep, SamplerStep.run]⟩
  next rest isList =>
    rw [isList]
    have idle : stepPenalty config history_tokens state = state := by
      rw [stepPenalty, if_pos leads]
    exact ⟨by simp [addStep], by simp [addStep, SamplerStep.run, idle]⟩
  next => exact absurd leads Bool.false_ne_true

omit [Add α] [Sub α] [Mul α] [Div α] [NatCast α] in
theorem topK_pos_of_prefilter (prefilter : mTopKPrefilter config = true) : 0 < config.topK := by
  simp only [mTopKPrefilter, Bool.and_eq_true, decide_eq_true_eq] at prefilter
  exact prefilter.1.1.1.2

variable (ptr) in
omit [One α] [Add α] [Sub α] [Mul α] [Div α] [NatCast α] in
theorem pairs_stepTopK (nth : IsNthElement α nth_element) (positive : 0 < config.topK)
    (less : config.topK < lastDim) :
    ∃ selected, Selected ptr (List.range lastDim) selected ∧ selected.length = config.topK.toNat ∧
      (stepTopK nth_element config (createState ptr lastDim)).pairs =
        selected.map fun i => (i, ptr i) := by
  have isLogit : ∀ i < lastDim, (createState ptr lastDim).logits.getD i 0 = ptr i := by
    intro i iLess
    simp [createState, iLess]
  have size : (createState ptr lastDim).logits.length = lastDim := by simp [createState]
  set key := fun i => (createState ptr lastDim).logits.getD i 0 with isKey
  have perm := nth.perm key config.topK.toNat (List.range lastDim)
  have parts := nth.parts key config.topK.toNat (List.range lastDim)
  set idx := nth_element (fun a b => decide (key b < key a)) config.topK.toNat
    (List.range lastDim) with isIdx
  have inside : ∀ i ∈ idx, i < lastDim := fun i member => mem_range.mp (perm.mem_iff.mp member)
  refine ⟨idx.take config.topK.toNat, ⟨idx.drop config.topK.toNat, ?_, fun first isFirst second
    isSecond => ?_⟩, ?_, ?_⟩
  · rwa [take_append_drop]
  · rw [← isLogit first (inside first (mem_of_mem_take isFirst)),
      ← isLogit second (inside second (mem_of_mem_drop isSecond))]
    exact parts first isFirst second isSecond
  · rw [length_take, perm.length_eq, length_range]
    omega
  · rw [stepTopK, if_neg (by rw [size]; omega)]
    simp only [SamplerState.pairs, if_true, size]
    rw [← isIdx, zip_map', map_inj_left]
    intro i member
    rw [isLogit i (inside i (mem_of_mem_take member))]
    simp [createState]

variable (nth_element ptr) in
omit [Add α] [Sub α] [Mul α] [Div α] [NatCast α] in
theorem pairs_sampleState (prefilter : mTopKPrefilter config = true) (aarch64 : Bool)
    (less : config.topK < lastDim) (window : Window α) :
    ∃ selected, Selected ptr (List.range lastDim) selected ∧ selected.length = config.topK.toNat ∧
      (stepTopK nth_element config (sampleState aarch64 config ptr lastDim window)).pairs =
        selected.map fun i => (i, ptr i) := by
  have positive := topK_pos_of_prefilter prefilter
  have best := best_topKSubset aarch64 ptr window (n := lastDim) (k := config.topK.toNat)
    (by omega) (by omega)
  refine ⟨_, best.selected, by simp, ?_⟩
  rw [sampleState, if_pos ⟨prefilter, less⟩, stepTopK, if_pos (by simp; omega)]
  simp only [SamplerState.pairs, if_true]
  rw [zip_map', map_map, map_inj_left]
  intro i member
  simp only [comp_apply]
  rw [(best.entry i (mem_range.mp member)).2]

/--
The scan finds the largest logits in falling order, lower tokens first among equal ones; and
where the sampler scans, the pairs behind the pipeline's first `topK` step are those which the
unfiltered pipeline has there, up to the choice among tied logits.
-/
theorem topKSubset_exact (nth : IsNthElement α nth_element) :
    (∀ (aarch64 : Bool) (x : Nat → α) (n k : Nat) (window : Window α), 1 ≤ k → k ≤ n →
      Best x n k (topKSubset aarch64 x n k window)) ∧
    ∀ (aarch64 : Bool) (config : SamplerConfig α) (ptr : Nat → α) (lastDim : Nat)
      (window : Window α) (NEG_INF : α) (later : SamplerStep → SamplerState α → SamplerState α)
      (history_tokens : List Int), mTopKPrefilter config = true →
      SamplerStep.topK ∈ buildPipeline config ∧
      SameUpToTies (reaching nth_element NEG_INF later config history_tokens
          (sampleState aarch64 config ptr lastDim window)).pairs
        (reaching nth_element NEG_INF later config history_tokens
          (createState ptr lastDim)).pairs := by
  refine ⟨fun aarch64 x n k window positive le => best_topKSubset aarch64 x window positive le,
    fun aarch64 config ptr lastDim window NEG_INF later history_tokens prefilter => ?_⟩
  have steps := fun state => reaching_of_prefilter nth_element prefilter NEG_INF
    later history_tokens state
  refine ⟨(steps (createState ptr lastDim)).1, ?_⟩
  rw [(steps _).2, (steps _).2]
  by_cases less : config.topK < lastDim
  · obtain ⟨first, isFirst, size, isPairs⟩ := pairs_sampleState nth_element ptr prefilter aarch64
      less window
    obtain ⟨second, isSecond, size', isPairs'⟩ := pairs_stepTopK ptr nth
      (topK_pos_of_prefilter prefilter) less
    rw [isPairs, isPairs']
    exact sameUpToTies_of_selected isFirst isSecond (size.trans size'.symm)
  · rw [sampleState, if_neg fun both => less both.2]
    exact ⟨List.Perm.refl _, fun _ _ => Iff.rfl⟩

/-- A full sort partitions as `std::nth_element` promises. -/
def sortAll (less : Nat → Nat → Bool) (_place : Nat) (items : List Nat) : List Nat :=
  items.mergeSort fun a b => !less b a

omit [Zero α] [One α] [Add α] [Sub α] [Mul α] [Div α] [NatCast α] in
theorem isNthElement_sortAll : IsNthElement α sortAll := by
  refine ⟨fun key place items => mergeSort_perm .., fun key place items first isFirst second
    isSecond => ?_⟩
  have sorted : (sortAll (fun a b => decide (key b < key a)) place items).Pairwise
      fun first second => key second ≤ key first := by
    refine (pairwise_mergeSort ?_ ?_ items).imp fun le => by simpa using le
    · intro a b c le le'
      simp only [Bool.not_eq_true', decide_eq_false_iff_not, not_lt] at le le' ⊢
      exact le'.trans le
    · intro a b
      simp only [Bool.or_eq_true, Bool.not_eq_true', decide_eq_false_iff_not, not_lt]
      exact le_total ..
  rw [← take_append_drop place (sortAll _ place items), pairwise_append] at sorted
  exact sorted.2.2 first isFirst second isSecond

end Pipeline

/-- Of four logits the largest two pass, and of the tied ones the first. -/
theorem topKSubset_exact_four : Best (fun i => ([5, 3, 7, 5] : List Int).getD i 0) 4 2
        (topKSubset true (fun i => ([5, 3, 7, 5] : List Int).getD i 0) 4 2 fun _ => (0, 0)) ∧
      SameUpToTies (reaching sortAll 0 (fun _ state => state)
          ⟨"mixed", 2, 1, 0, 0, 0, 8, 1, 10, ["penalty", "topK"], [], []⟩ [3]
          (sampleState true ⟨"mixed", 2, 1, 0, 0, 0, 8, 1, 10, ["penalty", "topK"], [], []⟩
            (fun i => ([5, 3, 7, 5] : List Int).getD i 0) 4 fun _ => (0, 0))).pairs
        (reaching sortAll 0 (fun _ state => state)
          ⟨"mixed", 2, 1, 0, 0, 0, 8, 1, 10, ["penalty", "topK"], [], []⟩ [3]
          (createState (fun i => ([5, 3, 7, 5] : List Int).getD i 0) 4)).pairs :=
  ⟨(topKSubset_exact isNthElement_sortAll).1 true _ 4 2 _ (by decide) (by decide),
    ((topKSubset_exact isNthElement_sortAll).2 true _ _ 4 _ 0 _ [3] (by decide)).2⟩

end Mnn.Llm.Sampler
