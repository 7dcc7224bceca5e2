import Mnn.Cpu.CPUKVCacheManager
import Mnn.Foundation.Runs

/-!
# The length of the KV cache

The manager counts the stored rows itself, and the meta data count them, too.
The two counts stay the same as long as no range is reserved while keys or
values are quantised: such a range is dropped by the manager only.
-/

namespace Mnn.Cpu

open Mnn.Core
open Mnn.Foundation.Runs
open List

variable {T : Type*} [Zero T] {config : KVConfig}

namespace CPUKVCacheManager

theorem computeReverseSize_eq {kvMeta : KVMeta} (positive : ∀ range ∈ kvMeta.reserve, 0 < range.2) :
    kvMeta.computeReverseSize = ((kvMeta.reserve.map Prod.snd).sum : Nat) := by
  unfold KVMeta.computeReverseSize
  rw [if_neg]
  rw [any_eq_true]
  rintro ⟨range, member, notPositive⟩
  exact Nat.not_le_of_lt (positive range member) (of_decide_eq_true notPositive)

/-- Moving rows leaves the capacity as it is and counts the rows. -/
theorem foldl_moveKV (config : KVConfig) (start : Nat) (reserve : List (Nat × Nat))
    (state : CPUKVCacheManager T × Nat) :
    let moved :=
      reserve.foldl (fun (state : CPUKVCacheManager T × Nat) range =>
          (moveKV config state.1 (start + range.1) state.2 range.2, state.2 + range.2))
        state
    moved.1.mMaxLength = state.1.mMaxLength ∧
      moved.1.mFlashAttentionUpperKv = state.1.mFlashAttentionUpperKv ∧
      moved.2 = state.2 + (reserve.map Prod.snd).sum := by
  induction reserve generalizing state with
  | nil => exact ⟨rfl, rfl, rfl⟩
  | cons range rest ih =>
    rcases ih (moveKV config state.1 (start + range.1) state.2 range.2,
      state.2 + range.2) with ⟨capacity, upper, length⟩
    refine ⟨capacity, upper, length.trans ?_⟩
    rw [map_cons, sum_cons, add_assoc]

theorem expand_capacity (config : KVConfig) (manager : CPUKVCacheManager T) (kvMeta : KVMeta)
    (freshKey freshValue : Nat → Buffer T) :
    kvSeqLen kvMeta ≤ (expand config manager kvMeta freshKey freshValue).mMaxLength ∧
      manager.mMaxLength ≤ (expand config manager kvMeta freshKey freshValue).mMaxLength ∧
      (expand config manager kvMeta freshKey freshValue).mPastLength =
        manager.mPastLength := by
  unfold expand
  simp only
  split
  · next larger =>
    refine ⟨?_, ?_, rfl⟩
    · show kvSeqLen kvMeta ≤ ((kvSeqLen kvMeta).toNat + config.mExpandChunk : Nat)
      omega
    · show manager.mMaxLength ≤ (kvSeqLen kvMeta).toNat + config.mExpandChunk
      omega
  · next enough => exact ⟨by omega, Nat.le_refl _, rfl⟩

/-- Whether the manager moves the reserved rows. -/
def MovesReserve (config : KVConfig) (kvMeta : KVMeta) : Prop :=
  kvMeta.reserve = [] ∨ (config.mKeyQuantMode = .none ∧ config.mValueQuantMode = .none)

theorem onRealloc_lengths (config : KVConfig) (manager : CPUKVCacheManager T) (kvMeta : KVMeta)
    (freshKey freshValue : Nat → Buffer T) :
    (onRealloc config manager kvMeta freshKey freshValue).mMaxLength =
        (expand config manager kvMeta freshKey freshValue).mMaxLength ∧
      (MovesReserve config kvMeta →
        (onRealloc config manager kvMeta freshKey freshValue).mPastLength =
          manager.mPastLength - kvMeta.remove + (kvMeta.reserve.map Prod.snd).sum) ∧
      (¬MovesReserve config kvMeta →
        (onRealloc config manager kvMeta freshKey freshValue).mPastLength =
          manager.mPastLength - kvMeta.remove) := by
  have same := (expand_capacity config manager kvMeta freshKey freshValue).2.2
  unfold onRealloc
  simp only
  split
  · next dropped =>
    refine ⟨rfl, ?_, ?_⟩
    · rintro (noReserve | ⟨keyNone, valueNone⟩)
      · simp only [noReserve, map_nil, sum_nil, add_zero, same]
      · have noReserve : kvMeta.reserve = [] := by
          rcases dropped with noReserve | keyQuant | valueQuant
          · exact noReserve
          · exact absurd keyNone keyQuant
          · exact absurd valueNone valueQuant
        simp only [noReserve, map_nil, sum_nil, add_zero, same]
    · intro _
      simp only [same]
  · next moves =>
    push Not at moves
    rcases foldl_moveKV config ((expand config manager kvMeta freshKey freshValue).mPastLength -
          kvMeta.remove)
        kvMeta.reserve
        (expand config manager kvMeta freshKey freshValue,
          (expand config manager kvMeta freshKey freshValue).mPastLength - kvMeta.remove) with
      ⟨capacity, -, length⟩
    refine ⟨capacity, ?_, ?_⟩
    · intro _
      rw [same] at length
      simpa only [same] using length
    · intro stays
      exact absurd (Or.inr moves.2) stays

end CPUKVCacheManager

namespace KVState

open CPUKVCacheManager

/-- The two counts agree, and there is room for the rows. -/
structure InStep (state : KVState T) : Prop where
  length : state.manager.mPastLength = state.kvMeta.previous
  capacity : state.manager.mPastLength ≤ state.manager.mMaxLength

/-- One forward keeps the counts together exactly if it moves what it reserves. -/
theorem inStep_step {state : KVState T} {round : Round T} (inStep : state.InStep)
    (valid : state.Valid round) :
    (state.step config round).InStep ↔ MovesReserve config (state.edited round) := by
  let edited := state.edited round
  have sum : edited.computeReverseSize = _ := computeReverseSize_eq valid.2
  rcases expand_capacity config state.manager edited round.freshKey round.freshValue with
    ⟨room, -, -⟩
  rcases onRealloc_lengths config state.manager edited round.freshKey round.freshValue with
    ⟨capacity, moved, dropped⟩
  have removeLe : round.remove ≤ state.kvMeta.previous := valid.1
  have previous :
      (state.step config round).kvMeta.previous = state.kvMeta.previous - round.remove + round.add +
          (round.reserve.map Prod.snd).sum :=
    rfl
  have past :
      (state.step config round).manager.mPastLength =
        (state.manager.onRealloc config edited round.freshKey
          round.freshValue).mPastLength + round.add :=
    rfl
  have total :
      (state.step config round).manager.mMaxLength =
        (expand config state.manager edited round.freshKey round.freshValue).mMaxLength :=
    capacity
  rw [kvSeqLen, sum] at room
  have lengths :
      (edited.previous : Int) = state.kvMeta.previous ∧
        edited.add = round.add ∧ edited.remove = round.remove ∧
        edited.reserve = round.reserve :=
    ⟨rfl, rfl, rfl, rfl⟩
  rcases lengths with ⟨editedPrevious, editedAdd, editedRemove, editedReserve⟩
  rw [editedPrevious, editedAdd, editedRemove, editedReserve] at room
  by_cases moves : MovesReserve config edited
  · have here := moved moves
    rw [inStep.length, editedRemove, editedReserve] at here
    constructor
    · exact fun _ => moves
    · intro _
      constructor
      · rw [past, previous, here]
        omega
      · rw [past, total, here]
        omega
  · have here := dropped moves
    rw [inStep.length, editedRemove] at here
    have someReserve : 0 < (round.reserve.map Prod.snd).sum := by
      cases isReserve : round.reserve with
      | nil => exact absurd (Or.inl isReserve) moves
      | cons range rest =>
        have positive := valid.2 range (by rw [isReserve]; exact mem_cons_self)
        rw [map_cons, sum_cons]
        omega
    constructor
    · rintro ⟨length, -⟩
      rw [past, previous, here] at length
      omega
    · exact fun impossible => absurd impossible moves

/--
The manager and the meta data count the same rows all along a run exactly if
no round reserves rows of a quantised cache.
-/
theorem lengths_inStep_iff
    (config : KVConfig) (seq_len : Nat) (freshKey freshValue : Nat → Buffer T)
    (rounds : List (Round T))
    (valid : EachAllowed (step config) Valid (start config seq_len freshKey freshValue) rounds) :
    Always (step config) InStep (start config seq_len freshKey freshValue) rounds ↔
      EachAllowed (step config) (fun _ round =>
          round.reserve = [] ∨ (config.mKeyQuantMode = .none ∧ config.mValueQuantMode = .none))
        (start config seq_len freshKey freshValue) rounds := by
  refine always_iff_eachAllowed_of_valid ?_ ⟨rfl, Nat.zero_le _⟩ valid
  exact fun state round inStep valid => inStep_step inStep valid

/-- A small cache with keys of this mode. -/
def smallConfig (mKeyQuantMode : KVQuantMode) : KVConfig where
  lP := 1
  hP := 4
  pack := 4
  mBytes := 4
  threadNumber := 1
  mKvNumHead := 1
  mHeadDim := 4
  mExpandChunk := 64
  mUseFlashAttention := true
  mKeyQuantMode := mKeyQuantMode
  mValueQuantMode := .none
  lP_pos := Nat.one_pos
  hP_pos := by decide

/-- A round whose rows are all zero. -/
def zeroRound (remove : Nat) (reserve : List (Nat × Nat)) (add : Nat) : Round Int where
  remove := remove
  reserve := reserve
  add := add
  rows := { key := 0, value := 0, valueC4 := false }
  freshKey := 0
  freshValue := 0

/-- Four rows, of which one in the middle is erased. -/
def eraseMiddle : List (Round Int) := [zeroRound 0 [] 4, zeroRound 3 [(1, 2)] 1]

theorem eraseMiddle_valid (mode : KVQuantMode) :
    EachAllowed (step (smallConfig mode)) Valid (start (smallConfig mode) 4 0 0) eraseMiddle := by
  rw [eraseMiddle, eachAllowed_cons, eachAllowed_cons]
  refine ⟨⟨?_, ?_⟩, ⟨?_, ?_⟩, eachAllowed_nil⟩
  · exact Nat.zero_le _
  · decide
  · show (3 : Nat) ≤ 4
    decide
  · decide

/-- The counts of an unquantised cache agree when a row is erased. -/
theorem lengths_eraseMiddle : Always (step (smallConfig .none)) InStep
      (start (smallConfig .none) 4 0 0) eraseMiddle :=
  (lengths_inStep_iff (smallConfig .none) 4 0 0 eraseMiddle
    (eraseMiddle_valid .none)).mpr fun _ _ _ => Or.inr ⟨rfl, rfl⟩

/-- The counts of a quantised cache do not. -/
theorem lengths_quantised : ¬∀ (config : KVConfig) (seq_len : Nat)
        (freshKey freshValue : Nat → Buffer Int) (rounds : List (Round Int)),
        EachAllowed (step config) Valid (start config seq_len freshKey freshValue) rounds →
          Always (step config) InStep (start config seq_len freshKey freshValue) rounds := by
  intro always
  have inStep := always (smallConfig .int8) 4 0 0 eraseMiddle (eraseMiddle_valid .int8) _
      (prefix_refl _)
  have lengths := inStep.length
  have past : (eraseMiddle.foldl (step (smallConfig .int8))
        (start (smallConfig .int8) 4 0 0)).manager.mPastLength = 2 := rfl
  have previous : (eraseMiddle.foldl (step (smallConfig .int8))
        (start (smallConfig .int8) 4 0 0)).kvMeta.previous = 4 := rfl
  rw [past, previous] at lengths
  exact absurd lengths (by decide)

end KVState

end Mnn.Cpu
