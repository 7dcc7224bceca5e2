import Mnn.Cpu.KVLayout

/-!
# The rows of the KV cache

The cache is a list of rows: `onRealloc` and `onUpdateKV` drop rows at the end,
put the reserved ones back and add new ones.  This is followed through the
addresses, in one call after the other.
-/

namespace Mnn.Cpu

open Mnn.Core
open Mnn.Foundation.Runs
open List
open Option
open Nat

/-- A key and a value for every head and dimension. -/
abbrev Row (T : Type*) := Nat → Nat → T × T

namespace CPUKVCacheManager

variable {T : Type*} [Zero T] {config : KVConfig}

/-! ## Moving rows -/

omit [Zero T] in
theorem copyRow_at {index : Nat → Nat → Nat} {mHeadDim : Nat}
    (separates : Separates index mHeadDim) (src dst : Nat) (buffer : Buffer T)
    {count : Nat} (countLe : count ≤ mHeadDim) {seq dim : Nat} (inside : dim < mHeadDim) :
    (List.range count).foldl (fun buffer j =>
          Function.update buffer (index dst j) (buffer (index src j)))
        buffer (index seq dim) =
      buffer (index (if seq = dst ∧ dim < count then src else seq) dim) := by
  induction count generalizing seq dim with
  | zero =>
    rw [if_neg fun both => not_lt_zero dim both.2]
    rfl
  | succ count ih =>
    have earlier := fun {seq dim : Nat} (inside : dim < mHeadDim) =>
      @ih (le_of_succ_le countLe) seq dim inside
    rw [range_succ, foldl_append, foldl_cons, foldl_nil]
    by_cases here : index seq dim = index dst count
    · rcases separates seq dst dim count inside countLe here with ⟨rfl, rfl⟩
      rw [Function.update_self, earlier inside, if_neg fun both => lt_irrefl dim both.2,
        if_pos ⟨rfl, lt_succ_self dim⟩]
    · rw [Function.update_of_ne here, earlier inside]
      congr 2
      refine if_congr ?_ rfl rfl
      constructor
      · rintro ⟨sameRow, less⟩
        exact ⟨sameRow, lt_succ_of_lt less⟩
      · rintro ⟨rfl, less⟩
        refine ⟨rfl, lt_of_le_of_ne (le_of_lt_succ less) ?_⟩
        rintro rfl
        exact here rfl

omit [Zero T] in
/-- Rows are moved to the front, where source and target may overlap. -/
theorem moveRows_at {index : Nat → Nat → Nat} {mHeadDim : Nat}
    (separates : Separates index mHeadDim) {src dst : Nat}
    (forward : dst ≤ src) (size : Nat) (buffer : Buffer T) {seq dim : Nat}
    (inside : dim < mHeadDim) :
    moveRows index mHeadDim src dst size buffer (index seq dim) = buffer
        (index (if dst ≤ seq ∧ seq < dst + size then src + (seq - dst) else seq) dim) := by
  unfold moveRows
  induction size generalizing seq dim with
  | zero =>
    rw [if_neg fun both => Nat.not_lt_of_le both.1 both.2]
    rfl
  | succ size ih =>
    rw [range_succ, foldl_append, foldl_cons, foldl_nil,
      copyRow_at separates _ _ _ (le_refl _) inside, ih inside]
    congr 2
    by_cases here : seq = dst + size
    · subst here
      have behind : ¬(dst ≤ src + size ∧ src + size < dst + size) := by
        omega
      have copied : (if dst + size = dst + size ∧ dim < mHeadDim then src + size
            else dst + size) = src + size :=
        if_pos ⟨rfl, inside⟩
      have moved : dst ≤ dst + size ∧ dst + size < dst + (size + 1) := by
        omega
      rw [copied, if_neg behind, if_pos moved, Nat.add_sub_cancel_left]
    · have kept :
          (if seq = dst + size ∧ dim < mHeadDim then src + size else seq) =
            seq :=
        if_neg fun both => here both.1
      rw [kept]
      refine if_congr ?_ rfl rfl
      omega

/-- What is stored for a row. -/
def rowAt (config : KVConfig) (manager : CPUKVCacheManager T) (seq : Nat) : Row T :=
  fun h dim => (keyAt config manager h seq dim, valueAt config manager h seq dim)

/-- Two rows are the same in all heads and dimensions that there are. -/
def SameRow (config : KVConfig) (row row' : Row T) : Prop :=
  ∀ h < config.mKvNumHead, ∀ dim < config.mHeadDim, row h dim = row' h dim

omit [Zero T] in
theorem SameRow.trans {first second third : Row T} (same : SameRow config first second)
    (same' : SameRow config second third) : SameRow config first third :=
  fun h hLess dim inside =>
    (same h hLess dim inside).trans (same' h hLess dim inside)

omit [Zero T] in
theorem moveKV_rowAt {manager : CPUKVCacheManager T}
    (positive : 0 < manager.mFlashAttentionUpperKv) {src dst : Nat}
    (forward : dst ≤ src) (size seq : Nat) :
    SameRow config (rowAt config (moveKV config manager src dst size) seq) (rowAt config manager
        (if dst ≤ seq ∧ seq < dst + size then src + (seq - dst) else seq)) := by
  intro h _ dim inside
  have keys : Separates config.keyIndex config.mHeadDim :=
    fun _ _ _ _ inside inside' same =>
      KVConfig.keyIndex_inj inside inside' same
  have values : Separates (config.valueIndex manager.mFlashAttentionUpperKv) config.mHeadDim :=
    fun _ _ _ _ inside inside' same =>
      KVConfig.valueIndex_inj positive inside inside' same
  exact Prod.ext (moveRows_at keys forward size (manager.mPastKey h) inside)
      (moveRows_at values forward size (manager.mPastValue h) inside)

omit [Zero T] in
/-- Each reserved row comes to the next place, and the rows before stay. -/
theorem foldl_moveKV_rowAt {start : Nat} {reserve : List (Nat × Nat)}
    {state : CPUKVCacheManager T × Nat} (positive : 0 < state.1.mFlashAttentionUpperKv)
    (ascending : reserve.Pairwise fun range next => range.1 + range.2 ≤ next.1)
    (ahead : ∀ range ∈ reserve, state.2 ≤ start + range.1) :
    let moved :=
      reserve.foldl (fun (state : CPUKVCacheManager T × Nat) range =>
          (moveKV config state.1 (start + range.1) state.2 range.2, state.2 + range.2))
        state
    (∀ seq < state.2, SameRow config (rowAt config moved.1 seq) (rowAt config state.1 seq)) ∧
      ∀ i number, (reserve.flatMap (KVMeta.rangeRows start))[i]? = some number →
          SameRow config (rowAt config moved.1 (state.2 + i)) (rowAt config state.1 number) := by
  induction reserve generalizing state with
  | nil =>
    constructor
    · exact fun _ _ _ _ _ _ => rfl
    · exact fun _ _ impossible => nomatch impossible
  | cons range rest ih =>
    have forward : state.2 ≤ start + range.1 := ahead range mem_cons_self
    rcases pairwise_cons.mp ascending with ⟨before, ascendingLater⟩
    have aheadLater : ∀ next ∈ rest, state.2 + range.2 ≤ start + next.1 := by
      intro next member
      have apart := before next member
      omega
    have move := @moveKV_rowAt _ config _ positive _ _ forward range.2
    rcases @ih (moveKV config state.1 (start + range.1) state.2 range.2, state.2 + range.2)
          positive ascendingLater aheadLater with
      ⟨front, later⟩
    constructor
    · intro seq less
      have step := move seq
      rw [if_neg (by omega)] at step
      exact (front seq (Nat.lt_add_right _ less)).trans step
    · intro i number isNumber
      rw [flatMap_cons] at isNumber
      by_cases inside : i < range.2
      · rw [getElem?_append_left (by simpa [KVMeta.rangeRows]),
          KVMeta.rangeRows, getElem?_range' inside] at isNumber
        have step := move (state.2 + i)
        rw [if_pos (by omega), Nat.add_sub_cancel_left] at step
        rw [← some.inj isNumber, one_mul]
        exact (front _ (Nat.add_lt_add_left inside _)).trans step
      · rw [getElem?_append_right (by simpa [KVMeta.rangeRows] using inside)]
          at isNumber
        simp only [KVMeta.rangeRows, length_range'] at isNumber
        have step := move number
        have behind : state.2 + range.2 ≤ number := by
          rcases mem_flatMap.mp (mem_of_getElem? isNumber) with
            ⟨next, member, isRow⟩
          have first := (mem_range'_1.mp isRow).1
          have apart := aheadLater next member
          omega
        rw [if_neg (by omega)] at step
        have shift : state.2 + range.2 + (i - range.2) = state.2 + i := by
          omega
        have restRow := later _ _ isNumber
        simp only [shift] at restRow
        exact restRow.trans step

/-! ## Making room -/

/-- The sizes belong to the capacity. -/
structure Sized (config : KVConfig) (manager : CPUKVCacheManager T) : Prop where
  upper : manager.mFlashAttentionUpperKv = config.upperKv manager.mMaxLength
  keySize : manager.mCurrentKeySizePerHead = config.keySizePerHead manager.mMaxLength
  valueSize :
    manager.mCurrentValueSizePerHead =
      config.valueSizePerHead manager.mMaxLength manager.mFlashAttentionUpperKv

omit [Zero T] in
theorem Sized.upper_pos {manager : CPUKVCacheManager T} (sized : Sized config manager)
    (positive : 0 < manager.mMaxLength) :
    0 < manager.mFlashAttentionUpperKv := by
  rw [sized.upper]
  unfold KVConfig.upperKv KVConfig.flashAttentionChunkKv
  split
  · split <;> decide
  · exact positive

theorem valueIndex_oneChunk {upper seq : Nat} (less : seq < upper) (dim : Nat) :
    config.valueIndex upper seq dim = dim / config.hP * (roundUp upper config.lP * config.hP) +
        ((seq / config.lP * config.hP + dim % config.hP) * config.lP +
          seq % config.lP) := by
  rw [KVConfig.valueIndex_eq, div_eq_of_lt less, mod_eq_of_lt less, roundUp_eq]
  ring

theorem inner_lt {length seq : Nat} (less : seq < length) (dim : Nat) :
    (seq / config.lP * config.hP + dim % config.hP) * config.lP +
        seq % config.lP < roundUp length config.lP * config.hP := by
  calc
    _ < upDiv length config.lP * config.hP * config.lP := digits_lt
        (digits_lt (div_lt_upDiv config.lP_pos less) (mod_lt _ config.hP_pos))
        (mod_lt _ config.lP_pos)
    _ = _ := by
      rw [roundUp_eq]
      ring

theorem valueSizePerHead_oneChunk {length : Nat} (positive : 0 < length) :
    config.valueSizePerHead length length =
      roundUp config.mHeadDim config.hP * roundUp length config.lP := by
  rw [KVConfig.valueSizePerHead,
    upDiv_of_mod_eq_zero positive (Nat.mod_self length), Nat.div_self positive,
    one_mul]

/-- The values of a stored row are found again after the expansion. -/
theorem expandKVCacheInMem_valueAt {manager : CPUKVCacheManager T} (sized : Sized config manager)
    {mMaxLength : Nat} (larger : manager.mMaxLength < mMaxLength)
    (freshKey freshValue : Nat → Buffer T) {h seq dim : Nat}
    (less : seq < manager.mMaxLength) (inside : dim < config.mHeadDim) :
    let upper := config.upperKv mMaxLength
    let resized :=
      { manager with
        mMaxLength := mMaxLength
        mFlashAttentionUpperKv := upper
        mCurrentKeySizePerHead := config.keySizePerHead mMaxLength
        mCurrentValueSizePerHead := config.valueSizePerHead mMaxLength upper }
    valueAt config (expandKVCacheInMem config resized manager.mMaxLength
          manager.mCurrentKeySizePerHead manager.mCurrentValueSizePerHead
          freshKey freshValue)
        h seq dim =
      valueAt config manager h seq dim := by
  intro upper resized
  have lP_pos := config.lP_pos
  have hP_pos := config.hP_pos
  have positive : 0 < manager.mMaxLength := zero_lt_of_lt less
  have lessNew : seq < mMaxLength := lt_trans less larger
  have upper_pos := sized.upper_pos positive
  simp only [valueAt, expandKVCacheInMem, resized]
  by_cases flash : config.mUseFlashAttention = true
  · -- The chunks stay, and those that are there are copied.
    have sameUpper : upper = manager.mFlashAttentionUpperKv := by
      rw [sized.upper]
      simp only [upper, KVConfig.upperKv, flash, if_true]
    have inBuffer : config.valueIndex upper seq dim < manager.mCurrentValueSizePerHead := by
      rw [sameUpper, sized.valueSize]
      exact KVConfig.valueIndex_lt upper_pos less inside
    split
    · beta_reduce
      rw [if_pos inBuffer, sameUpper]
    · rw [sameUpper]
  · have oneChunk : upper = mMaxLength := by
      simp only [upper, KVConfig.upperKv, flash, Bool.false_eq_true, if_false]
    have oneChunkOld : manager.mFlashAttentionUpperKv = manager.mMaxLength := by
      rw [sized.upper, KVConfig.upperKv, if_neg flash]
    rw [oneChunk, oneChunkOld, valueIndex_oneChunk lessNew, valueIndex_oneChunk less]
    have innerOld := @inner_lt config _ _ less dim
    have innerNew := @inner_lt config _ _ lessNew dim
    split
    · have stride_pos : 0 < roundUp mMaxLength config.lP * config.hP := zero_lt_of_lt innerNew
      have isGroup :
          (dim / config.hP * (roundUp mMaxLength config.lP * config.hP) +
                ((seq / config.lP * config.hP + dim % config.hP) * config.lP +
                  seq % config.lP)) /
              (roundUp mMaxLength config.lP * config.hP) =
            dim / config.hP := by
        rw [mul_comm (dim / config.hP), mul_add_div stride_pos,
          div_eq_of_lt innerNew, add_zero]
      have isInner :
          (dim / config.hP * (roundUp mMaxLength config.lP * config.hP) +
                ((seq / config.lP * config.hP + dim % config.hP) * config.lP +
                  seq % config.lP)) %
              (roundUp mMaxLength config.lP * config.hP) =
            (seq / config.lP * config.hP + dim % config.hP) * config.lP + seq % config.lP := by
        rw [mul_comm (dim / config.hP), mul_add_mod, mod_eq_of_lt innerNew]
      beta_reduce
      rw [isGroup, isInner, if_pos (div_lt_upDiv hP_pos inside), if_pos innerOld]
    · next sameSize =>
      -- The buffer is kept, because the rounded lengths are the same.
      rw [not_not, sized.valueSize, oneChunkOld, valueSizePerHead_oneChunk positive,
        valueSizePerHead_oneChunk (zero_lt_of_lt lessNew)] at sameSize
      have dimsPositive : 0 < roundUp config.mHeadDim config.hP :=
        lt_of_lt_of_le (zero_lt_of_lt inside) (le_roundUp hP_pos)
      rw [Nat.eq_of_mul_eq_mul_left dimsPositive sameSize]

/-- The keys of a stored row are found again after the expansion. -/
theorem expandKVCacheInMem_keyAt
    {manager resized : CPUKVCacheManager T} (sized : Sized config manager)
    (sameKeys : resized.mPastKey = manager.mPastKey)
    (freshKey freshValue : Nat → Buffer T) {h seq dim : Nat}
    (less : seq < manager.mMaxLength) (inside : dim < config.mHeadDim) :
    keyAt config (expandKVCacheInMem config resized manager.mMaxLength
          manager.mCurrentKeySizePerHead manager.mCurrentValueSizePerHead freshKey freshValue)
        h seq dim =
      keyAt config manager h seq dim := by
  have inBuffer : config.keyIndex seq dim < manager.mCurrentKeySizePerHead := by
    rw [sized.keySize]
    exact KVConfig.keyIndex_lt less inside
  simp only [keyAt, expandKVCacheInMem]
  rw [if_pos inBuffer, sameKeys]

/-- Making room keeps the rows, and the sizes belong to the new capacity. -/
theorem expand_rowAt {manager : CPUKVCacheManager T} (sized : Sized config manager)
    (kvMeta : KVMeta) (freshKey freshValue : Nat → Buffer T) :
    Sized config (expand config manager kvMeta freshKey freshValue) ∧ ∀ seq < manager.mMaxLength,
        SameRow config (rowAt config (expand config manager kvMeta freshKey freshValue) seq)
          (rowAt config manager seq) := by
  unfold expand
  simp only
  split
  · next larger =>
    constructor
    · exact ⟨rfl, rfl, rfl⟩
    · intro seq less h _ dim inside
      have grows : manager.mMaxLength < (kvSeqLen kvMeta).toNat + config.mExpandChunk := by
        omega
      refine Prod.ext ?_ ?_
      · refine expandKVCacheInMem_keyAt sized ?_ freshKey freshValue less inside
        rfl
      · exact expandKVCacheInMem_valueAt sized grows freshKey freshValue less inside
  · exact ⟨sized, fun _ _ _ _ _ _ => rfl⟩

theorem onRealloc_rowAt
    (unquantised : config.mKeyQuantMode = .none ∧ config.mValueQuantMode = .none)
    {manager : CPUKVCacheManager T} {kvMeta : KVMeta}
    (counted : manager.mPastLength = kvMeta.previous) {freshKey freshValue : Nat → Buffer T}
    (positive : 0 < (expand config manager kvMeta freshKey freshValue).mFlashAttentionUpperKv)
    (ascending : kvMeta.reserve.Pairwise fun range next => range.1 + range.2 ≤ next.1)
    {i number : Nat} (isNumber : kvMeta.keptRows[i]? = some number) :
    SameRow config (rowAt config (onRealloc config manager kvMeta freshKey freshValue) i)
      (rowAt config (expand config manager kvMeta freshKey freshValue) number) := by
  have samePast := (expand_capacity config manager kvMeta freshKey freshValue).2.2
  rw [KVMeta.keptRows, ← counted, ← samePast] at isNumber
  unfold onRealloc
  simp only [unquantised, ne_eq, not_true_eq_false, or_false]
  split
  · next noReserve =>
    rw [noReserve, flatMap_nil, append_nil] at isNumber
    have less := (List.getElem?_eq_some_iff.mp isNumber).1
    rw [getElem?_range (by simpa using less)] at isNumber
    rw [← some.inj isNumber]
    exact fun _ _ _ _ => rfl
  · let start :=
      (expand config manager kvMeta freshKey freshValue).mPastLength - kvMeta.remove
    rcases @foldl_moveKV_rowAt T config start kvMeta.reserve
          (expand config manager kvMeta freshKey freshValue, start) positive
          ascending fun _ _ => Nat.le_add_right .. with
      ⟨front, reserved⟩
    by_cases kept : i < start
    · rw [getElem?_append_left (by simpa using kept), getElem?_range kept] at isNumber
      rw [← some.inj isNumber]
      exact front i kept
    · have behind : (List.range start).length ≤ i := by
        rw [length_range]
        exact Nat.le_of_not_lt kept
      rw [getElem?_append_right behind, length_range] at isNumber
      have sameRow := reserved _ _ isNumber
      have shift : start + (i - start) = i := by
        omega
      simp only [start] at shift
      simp only [start, shift] at sameRow
      exact sameRow

/-- The row that the attention operator adds for a token. -/
def newRow (config : KVConfig) (rows : Rows T) (add i : Nat) : Row T :=
  fun h dim =>
    (rows.key (i * (config.mKvNumHead * config.mHeadDim) + (h * config.mHeadDim + dim)), rows.value
        (if rows.valueC4 then
          c4Offset i (h * config.mHeadDim + dim) add config.pack
        else
          i * (config.mKvNumHead * config.mHeadDim) + (h * config.mHeadDim + dim)))

theorem onUpdateKV_rowAt {manager : CPUKVCacheManager T}
    (positive : 0 < manager.mFlashAttentionUpperKv) (rows : Rows T) (add : Nat) :
    (∀ seq < manager.mPastLength,
        SameRow config (rowAt config (onUpdateKV config manager rows add) seq)
          (rowAt config manager seq)) ∧
      ∀ i < add, SameRow config (rowAt config (onUpdateKV config manager rows add)
            (manager.mPastLength + i))
          (newRow config rows add i) := by
  have keys := fun h =>
    @processKey_adds T _ config manager.mPastLength rows.key add h (manager.mPastKey h)
  have values := fun h =>
    @processValue_adds T _ config _ positive manager.mPastLength rows add h (manager.mPastValue h)
  constructor
  · intro seq less h _ dim inside
    exact Prod.ext ((keys h).old seq dim less inside) ((values h).old seq dim less inside)
  · intro i less h _ dim inside
    refine Prod.ext ?_ ?_
    · refine ((keys h).new i dim less inside).trans ?_
      simp only [keyRow, newRow]
      congr 1
      ring
    · refine ((values h).new i dim less inside).trans ?_
      simp only [valueRowAt, newRow]
      by_cases isC4 : rows.valueC4 = true
      · rw [loadValue_c4 isC4 less, if_pos isC4]
      · rw [loadValue, if_neg isC4, if_neg isC4]

end CPUKVCacheManager

namespace KVState

open CPUKVCacheManager

variable {T : Type*} [Zero T] (config : KVConfig)

/-! ## Runs -/

/-- The ranges follow each other and lie in what is removed. -/
def ValidRanges (state : KVState T) (round : Round T) : Prop :=
  state.Valid round ∧ (round.reserve.Pairwise fun range next => range.1 + range.2 ≤ next.1) ∧
    ∀ range ∈ round.reserve, range.1 + range.2 ≤ round.remove

/--
The rows behind a forward: those that are not removed, the reserved ones, and
the new ones.
-/
def nextRows (rows : List (Row T)) (round : Round T) : List (Row T) :=
  let kept := rows.length - round.remove
  rows.take kept ++ (round.reserve.flatMap fun range =>
        (rows.drop (kept + range.1)).take range.2) ++
    (List.range round.add).map (newRow config round.rows round.add)

/-- The cache holds these rows. -/
structure Stores (state : KVState T) (rows : List (Row T)) : Prop where
  inStep : state.InStep
  count : state.kvMeta.previous = rows.length
  sized : Sized config state.manager
  row : ∀ i row, rows[i]? = some row → SameRow config (rowAt config state.manager i) row

variable {config}

omit [Zero T] in
theorem foldl_moveKV_sized (start : Nat) {reserve : List (Nat × Nat)}
    {state : CPUKVCacheManager T × Nat} (sized : Sized config state.1) :
    Sized config (reserve.foldl (fun (state : CPUKVCacheManager T × Nat) range =>
          (moveKV config state.1 (start + range.1) state.2 range.2, state.2 + range.2))
        state).1 := by
  induction reserve generalizing state with
  | nil => exact sized
  | cons range rest ih =>
    apply ih
    exact ⟨sized.upper, sized.keySize, sized.valueSize⟩

variable {state : KVState T}

theorem sized_step (sized : Sized config state.manager)
    (round : Round T) : Sized config (state.step config round).manager := by
  let manager :=
    state.manager.expand config (state.edited round) round.freshKey round.freshValue
  let start := manager.mPastLength - round.remove
  have expanded : Sized config manager := (expand_rowAt sized (state.edited round) round.freshKey
      round.freshValue).1
  have realloc : Sized config (state.manager.onRealloc config (state.edited round) round.freshKey
          round.freshValue) := by
    unfold onRealloc
    simp only
    split
    · exact ⟨expanded.upper, expanded.keySize, expanded.valueSize⟩
    · have moved := @foldl_moveKV_sized T config start round.reserve (manager, start) expanded
      exact ⟨moved.upper, moved.keySize, moved.valueSize⟩
  exact ⟨realloc.upper, realloc.keySize, realloc.valueSize⟩

theorem take_drop_eq_map {α : Type*} {rows : List α} {first size : Nat} (other : α)
    (inside : first + size ≤ rows.length) :
    (rows.drop first).take size =
      (List.range' first size).map fun number => rows.getD number other := by
  apply ext_getElem?
  intro i
  by_cases less : i < size
  · have inRows : first + i < rows.length := by
      omega
    rw [getElem?_take_of_lt less, getElem?_drop, getElem?_map,
      getElem?_range' less, one_mul, map_some,
      getD_eq_getElem?_getD, getElem?_eq_getElem inRows,
      getD_some]
  · have notLess := Nat.le_of_not_lt less
    rw [getElem?_eq_none, getElem?_eq_none]
    · rwa [length_map, length_range']
    · rw [length_take]
      omega

variable {round : Round T}

theorem nextRows_eq {rows : List (Row T)} (count : state.kvMeta.previous = rows.length)
    (valid : state.ValidRanges round) :
    nextRows config rows round =
      ((state.edited round).keptRows.map fun number => rows.getD number 0) ++
        (List.range round.add).map (newRow config round.rows round.add) := by
  rcases valid with ⟨⟨removeLe, -⟩, -, inside⟩
  rw [count] at removeLe
  have front :
      rows.take (rows.length - round.remove) =
        (List.range (rows.length - round.remove)).map fun number =>
          rows.getD number 0 := by
    rw [range_eq_range']
    have part := @take_drop_eq_map _ rows 0 (rows.length - round.remove) 0 (by omega)
    rwa [drop_zero] at part
  have reserved : (round.reserve.flatMap fun range =>
          (rows.drop (rows.length - round.remove + range.1)).take range.2) =
        (round.reserve.flatMap (KVMeta.rangeRows (rows.length - round.remove))).map fun number =>
          rows.getD number 0 := by
    rw [map_flatMap]
    apply flatMap_congr
    intro range member
    have inRemoved := inside range member
    exact take_drop_eq_map 0 (by omega)
  have keptRows :
      (state.edited round).keptRows = List.range (rows.length - round.remove) ++
          round.reserve.flatMap (KVMeta.rangeRows (rows.length - round.remove)) := by
    rw [← count]
    rfl
  rw [keptRows, map_append, ← front, ← reserved]
  rfl

omit [Zero T] in
theorem keptRows_lt (valid : state.ValidRanges round)
    {number : Nat} (member : number ∈ (state.edited round).keptRows) :
    number < state.kvMeta.previous := by
  rcases valid with ⟨⟨removeLe, -⟩, -, inside⟩
  rcases mem_append.mp member with front | reserved
  · exact lt_of_lt_of_le (mem_range.mp front) (sub_le ..)
  · rcases mem_flatMap.mp reserved with ⟨range, inReserve, isRow⟩
    have less := (mem_range'_1.mp isRow).2
    have inRemoved := inside range inReserve
    simp only [edited] at less
    omega

theorem stores_step (unquantised : config.mKeyQuantMode = .none ∧ config.mValueQuantMode = .none)
    {rows : List (Row T)} (stores : Stores config state rows) (valid : state.ValidRanges round) :
    Stores config (state.step config round) (nextRows config rows round) := by
  let edited := state.edited round
  let expanded :=
    state.manager.expand config edited round.freshKey round.freshValue
  let realloc :=
    state.manager.onRealloc config edited round.freshKey round.freshValue
  have inStep : (state.step config round).InStep :=
    (inStep_step stores.inStep valid.1).mpr (Or.inr unquantised)
  have isNext := @nextRows_eq T _ config state round rows stores.count valid
  have sized := sized_step stores.sized round
  rcases expand_rowAt stores.sized edited round.freshKey round.freshValue with
    ⟨expandedSized, expandedRow⟩
  rcases expand_capacity config state.manager edited round.freshKey round.freshValue with
    ⟨-, grows, -⟩
  rcases onRealloc_lengths config state.manager edited round.freshKey round.freshValue with
    ⟨capacity, moved, -⟩
  have past : realloc.mPastLength = edited.keptRows.length := by
    rw [KVMeta.keptRows, length_append, length_range, KVMeta.length_flatMap_rangeRows]
    refine (moved (Or.inr unquantised)).trans ?_
    rw [stores.inStep.length]
    rfl
  have count : (state.step config round).kvMeta.previous = (nextRows config rows round).length := by
    rw [isNext, length_append, length_map, length_map, length_range]
    exact KVMeta.sync_previous edited
  constructor
  · exact inStep
  · exact count
  · exact sized
  · intro i row isRow
    have filled : 0 < (state.step config round).manager.mPastLength := by
      rw [inStep.length, count]
      exact zero_lt_of_lt (List.getElem?_eq_some_iff.mp isRow).1
    have positive : 0 < realloc.mFlashAttentionUpperKv :=
      sized.upper_pos (lt_of_lt_of_le filled inStep.capacity)
    rcases @onUpdateKV_rowAt T _ config realloc positive round.rows round.add with
      ⟨old, new⟩
    rw [isNext] at isRow
    by_cases kept : i < edited.keptRows.length
    · rw [getElem?_append_left (by rwa [length_map]), getElem?_map] at isRow
      rcases map_eq_some_iff.mp isRow with ⟨number, isNumber, rfl⟩
      have less : number < rows.length := by
        rw [← stores.count]
        exact keptRows_lt valid (mem_of_getElem? isNumber)
      have inCapacity : number < state.manager.mMaxLength := by
        have total := stores.inStep.capacity
        rw [stores.inStep.length, stores.count] at total
        exact lt_of_lt_of_le less total
      have expandedPositive : 0 < expanded.mFlashAttentionUpperKv := expandedSized.upper_pos
          (lt_of_lt_of_le (zero_lt_of_lt inCapacity) grows)
      have isOld : rows[number]? = some (rows.getD number 0) := by
        rw [getD_eq_getElem?_getD, getElem?_eq_getElem less, getD_some]
      have stays := old i (by rwa [past])
      have counted : state.manager.mPastLength = edited.previous := stores.inStep.length
      have moves := onRealloc_rowAt unquantised counted expandedPositive valid.2.1 isNumber
      exact stays.trans (moves.trans ((expandedRow number inCapacity).trans
              (stores.row number _ isOld)))
    · have behind := Nat.le_of_not_lt kept
      rw [getElem?_append_right (by rwa [length_map]), length_map, getElem?_map] at isRow
      rcases map_eq_some_iff.mp isRow with ⟨k, isNumber, rfl⟩
      rcases List.getElem?_eq_some_iff.mp isNumber with ⟨less, isK⟩
      rw [getElem_range] at isK
      rw [length_range, isK] at less
      have added := new k less
      have place : realloc.mPastLength + k = i := by
        rw [past, ← isK, Nat.add_sub_cancel' behind]
      rw [place] at added
      exact added

theorem stores_start (seq_len : Nat) (freshKey freshValue : Nat → Buffer T) :
    Stores config (start config seq_len freshKey freshValue) [] := by
  constructor
  · exact ⟨rfl, zero_le _⟩
  · rfl
  · exact ⟨rfl, rfl, rfl⟩
  · exact fun _ _ impossible => nomatch impossible

theorem stores_foldl (unquantised : config.mKeyQuantMode = .none ∧ config.mValueQuantMode = .none)
    {rounds : List (Round T)} {rows : List (Row T)} (stores : Stores config state rows)
    (valid : EachAllowed (step config) ValidRanges state rounds) :
    Stores config (rounds.foldl (step config) state) (rounds.foldl (nextRows config) rows) := by
  induction rounds generalizing state rows with
  | nil => exact stores
  | cons round rest ih =>
    rcases eachAllowed_cons.mp valid with ⟨here, later⟩
    exact ih (stores_step unquantised stores here) later

/--
What is read from an unquantised cache is, in every head and dimension, what is
left of the rows that were added.
-/
theorem reads_rows (config : KVConfig)
    (unquantised : config.mKeyQuantMode = .none ∧ config.mValueQuantMode = .none)
    (seq_len : Nat) (freshKey freshValue : Nat → Buffer T) (rounds : List (Round T))
    (valid : EachAllowed (step config) ValidRanges
        (start config seq_len freshKey freshValue) rounds) :
    let state :=
      rounds.foldl (step config) (start config seq_len freshKey freshValue)
    let rows := rounds.foldl (nextRows config) []
    state.manager.mPastLength = rows.length ∧ state.kvMeta.previous = rows.length ∧
      rows.length ≤ state.manager.mMaxLength ∧
      ∀ seq row, rows[seq]? = some row → ∀ h < config.mKvNumHead, ∀ dim < config.mHeadDim,
          keyAt config state.manager h seq dim = (row h dim).1 ∧
            valueAt config state.manager h seq dim = (row h dim).2 := by
  intro state rows
  have stores : Stores config state rows :=
    stores_foldl unquantised (stores_start seq_len freshKey freshValue) valid
  have length := stores.inStep.length.trans stores.count
  refine ⟨length, stores.count, ?_, ?_⟩
  · rw [← length]
    exact stores.inStep.capacity
  · intro seq row isRow h hLess dim inside
    exact Prod.mk.inj (stores.row seq row isRow h hLess dim inside)

/-- Four rows, of which one in the middle is erased before a row is added. -/
def eraseCounted : List (Round Int) :=
  let rows : Rows Int :=
    { key := fun address => address
      value := fun address => -address
      valueC4 := false }
  [{ zeroRound 0 [] 4 with rows := rows }, { zeroRound 3 [(1, 2)] 1 with rows := rows }]

/-- The third row is read behind the first. -/
theorem reads_eraseCounted :
    let state :=
      eraseCounted.foldl (step (smallConfig .none)) (start (smallConfig .none) 4 0 0)
    state.manager.mPastLength = 4 ∧ keyAt (smallConfig .none) state.manager 0 1 0 = 8 ∧
      valueAt (smallConfig .none) state.manager 0 1 0 = -8 := by
  intro state
  have valid : EachAllowed (step (smallConfig .none)) ValidRanges
        (start (smallConfig .none) 4 0 0) eraseCounted := by
    rw [eraseCounted, eachAllowed_cons, eachAllowed_cons]
    refine ⟨⟨⟨zero_le _, by decide⟩, by decide, by decide⟩,
      ⟨⟨?_, by decide⟩, by decide, by decide⟩, eachAllowed_nil⟩
    show (3 : Nat) ≤ 4
    decide
  have reads := reads_rows (smallConfig .none) ⟨rfl, rfl⟩ 4 0 0 eraseCounted valid
  have row := reads.2.2.2 1 _ rfl 0 one_pos 0 (by decide)
  exact ⟨reads.1, row.1, row.2⟩

/-! ## Drafts -/

variable {draft : Round T} {rows : List (Row T)}

/-- The rows of a draft, and those that a round removes behind it. -/
def rolledBack (draft round : Round T) : List (Round T) :=
  [draft, { round with remove := draft.add + round.remove }]

omit [Zero T] in
theorem nextRows_rolledBack (onlyAdds : draft.remove = 0 ∧ draft.reserve = [])
    (removeLe : round.remove ≤ rows.length)
    (inside : ∀ range ∈ round.reserve, range.1 + range.2 ≤ round.remove) :
    (rolledBack draft round).foldl (nextRows config) rows = nextRows config rows round := by
  have kept : rows.length + draft.add - (draft.add + round.remove) =
      rows.length - round.remove := by
    omega
  simp only [rolledBack, foldl_cons, foldl_nil, nextRows, onlyAdds, flatMap_nil, append_nil,
    Nat.sub_zero, take_length, length_append, length_map, length_range, kept]
  rw [take_append_of_le_length (sub_le ..)]
  congr 2
  refine flatMap_congr fun range member => ?_
  have inRemoved := inside range member
  rw [drop_append_of_le_length (by omega), take_append_of_le_length (by rw [length_drop]; omega)]

/-- Rows that are added and then removed leave no trace. -/
theorem stores_rolledBack
    (unquantised : config.mKeyQuantMode = .none ∧ config.mValueQuantMode = .none)
    (stores : Stores config state rows) (onlyAdds : draft.remove = 0 ∧ draft.reserve = [])
    (valid : state.ValidRanges round) :
    Stores config (state.step config round) (nextRows config rows round) ∧
      Stores config ((rolledBack draft round).foldl (step config) state)
        (nextRows config rows round) := by
  refine ⟨stores_step unquantised stores valid, ?_⟩
  rcases valid with ⟨⟨removeLe, positive⟩, apart, inside⟩
  have isDraft : state.ValidRanges draft := by
    simp [ValidRanges, Valid, onlyAdds]
  have drafted := stores_step unquantised stores isDraft
  have isRolled : (state.step config draft).ValidRanges
      { round with remove := draft.add + round.remove } := by
    refine ⟨⟨?_, positive⟩, apart, fun range member => ?_⟩
    · simp only [step, edited, KVMeta.sync, onlyAdds]
      omega
    · exact (inside range member).trans (Nat.le_add_left ..)
  rw [stores.count] at removeLe
  rw [← nextRows_rolledBack onlyAdds removeLe inside]
  exact stores_step unquantised drafted isRolled

/-- The cache grows for a draft of many rows. -/
theorem stores_rolledBack_grown :
    Stores (smallConfig .none)
      ((rolledBack (zeroRound 0 [] 70) (zeroRound 0 [] 1)).foldl (step (smallConfig .none))
        (start (smallConfig .none) 4 0 0))
      (nextRows (smallConfig .none) [] (zeroRound 0 [] 1)) :=
  (stores_rolledBack ⟨rfl, rfl⟩ (stores_start 4 0 0) ⟨rfl, rfl⟩
    ⟨⟨zero_le _, by decide⟩, by decide, by decide⟩).2

end KVState

end Mnn.Cpu
