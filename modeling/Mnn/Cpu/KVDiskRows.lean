import Mnn.Cpu.KVCacheInDisk

/-!
# The rows of the KV cache in files

The loops over the heads work on one segment of a file after the other and stay
inside of it.  So the rows that a call does not drop or move are where they
were, also when the files have grown.
-/

namespace Mnn.Cpu

open Mnn.Core
open Mnn.Foundation.Segments
open List
open Nat

namespace KVConfig

variable {config : KVConfig}

theorem upperKv_pos {mMaxLength : Nat} (positive : 0 < mMaxLength) :
    0 < config.upperKv mMaxLength := by
  unfold upperKv flashAttentionChunkKv
  split
  · split <;> decide
  · exact positive

theorem upperKv_flash (flash : config.mUseFlashAttention = true) (mMaxLength : Nat) :
    config.upperKv mMaxLength = config.flashAttentionChunkKv :=
  if_pos flash

theorem upperKv_noFlash (noFlash : ¬config.mUseFlashAttention = true) (mMaxLength : Nat) :
    config.upperKv mMaxLength = mMaxLength :=
  if_neg noFlash

end KVConfig

variable {upper mMaxLength mPastLength seqLen : Nat}

namespace CPUKVCacheManager

variable {T : Type*} [Zero T] {config : KVConfig}

theorem tile_lt {upper mMaxLength : Nat} (positive : 0 < upper) {row g x : Nat}
    (less : row < mMaxLength) (gLess : g < upDiv config.mHeadDim config.hP)
    (xLess : x < config.lP * config.hP) :
    row / upper * (upDiv upper config.lP * (config.lP * config.hP) *
              upDiv config.mHeadDim config.hP) +
          row % upper / config.lP * (config.lP * config.hP) +
        g * (upDiv upper config.lP * (config.lP * config.hP)) + x <
      config.valueSizePerHead mMaxLength upper := by
  calc
    _ = ((row / upper * upDiv config.mHeadDim config.hP + g) *
              upDiv upper config.lP + row % upper / config.lP) *
            (config.lP * config.hP) + x := by
      ring
    _ < upDiv mMaxLength upper * upDiv config.mHeadDim config.hP *
          upDiv upper config.lP * (config.lP * config.hP) :=
      digits_lt (digits_lt (digits_lt (div_lt_upDiv positive less) gLess)
          (div_lt_upDiv config.lP_pos (mod_lt _ positive)))
        xLess
    _ = _ := by
      rw [KVConfig.valueSizePerHead, roundUp_eq, roundUp_eq]
      ring

theorem mem_processValue (positive : 0 < upper)
    (room : mPastLength + seqLen ≤ mMaxLength) (rows : Rows T) (kvHead : Nat)
    {address : Nat} {value : T}
    (member : (address, value) ∈ processValue config mPastLength upper rows seqLen kvHead) :
    address < config.valueSizePerHead mMaxLength upper ∧ (value = 0 ∨
        ∃ i dim, i < seqLen ∧ dim < config.mHeadDim ∧
          address = config.valueIndex upper (mPastLength + i) dim ∧
          value = valueRowAt config rows seqLen kvHead i dim) := by
  unfold processValue at member
  split at member
  · next fast =>
    rcases fast with ⟨isC4, -, packed, -, lPOne, aligned, -⟩
    have baseAligned : kvHead * config.mHeadDim % config.hP = 0 := by
      rw [mul_mod, aligned, mul_zero, zero_mod]
    rw [mem_copyRuns positive lPOne aligned baseAligned (sub_le ..)] at member
    rcases member with ⟨i, dim, less, inside, rfl, rfl⟩
    rw [zero_add] at less
    constructor
    · exact KVConfig.valueIndex_lt positive (by omega) inside
    · refine Or.inr ⟨i, dim, less, inside, rfl, ?_⟩
      rw [valueRowAt, loadValue_c4 isC4 less, packed, zero_add]
  · rcases mem_flatMap.mp member with ⟨i, inRows, inRow⟩
    have less := mem_range.mp inRows
    unfold valueRow at inRow
    simp only at inRow
    rcases mem_append.mp inRow with inTile | inElements
    · split at inTile
      · simp only [mem_flatMap, mem_map, mem_range, Prod.mk.injEq] at inTile
        rcases inTile with ⟨g, gLess, x, xLess, rfl, rfl⟩
        exact ⟨tile_lt positive (by omega) gLess xLess, Or.inl rfl⟩
      · cases inTile
    · rcases (mem_rowWrites upper (mPastLength + i) fun j =>
              loadValue config rows seqLen i (kvHead * config.mHeadDim + j)).mp
            inElements with
        ⟨dim, inside, rfl, rfl⟩
      constructor
      · exact KVConfig.valueIndex_lt positive (by omega) inside
      · exact Or.inr ⟨i, dim, less, inside, rfl, rfl⟩

theorem processKey_within {mMaxLength mPastLength seqLen : Nat}
    (room : mPastLength + seqLen ≤ mMaxLength) (key : Buffer T) (kvHead : Nat) :
    Within (config.keySizePerHead mMaxLength)
      (writeAll (processKey config mPastLength key seqLen kvHead)) := by
  intro buffer address outside
  apply writeAll_other
  intro value member
  rcases (processKey_rows mPastLength key seqLen kvHead address value).mp member
    with ⟨i, dim, less, inside, rfl, -⟩
  have inHead := @KVConfig.keyIndex_lt config (mPastLength + i) dim mMaxLength (by omega) inside
  omega

theorem processValue_within (positive : 0 < upper)
    (room : mPastLength + seqLen ≤ mMaxLength) (rows : Rows T) (kvHead : Nat) :
    Within (config.valueSizePerHead mMaxLength upper)
      (writeAll (processValue config mPastLength upper rows seqLen kvHead)) := by
  intro buffer address outside
  apply writeAll_other
  intro value member
  have inHead := (mem_processValue positive room rows kvHead member).1
  omega

omit [Zero T] in
theorem moveRows_other {index : Nat → Nat → Nat} {mHeadDim src dst size address : Nat} (other :
      ∀ i dim, i < size → dim < mHeadDim → address ≠ index (dst + i) dim) (buffer : Buffer T) :
    moveRows index mHeadDim src dst size buffer address = buffer address := by
  unfold moveRows
  refine foldl_untouched _ ?_ buffer
  intro i member buffer
  refine foldl_untouched _ ?_ buffer
  intro j member' buffer
  exact Function.update_of_ne (other i j (mem_range.mp member) (mem_range.mp member')) ..

end CPUKVCacheManager

namespace DiskCache

open CPUKVCacheManager

variable {T : Type*} [Zero T] {config : KVConfig}

/-! ## Sizes -/

/-- The sizes belong to the capacity. -/
structure Sized (config : KVConfig) (cache : DiskCache T) : Prop where
  upper : cache.mFlashAttentionUpperKv = config.upperKv cache.mMaxLength
  keySize : cache.mCurrentKeySizePerHead = config.keySizePerHead cache.mMaxLength
  valueSize :
    cache.mCurrentValueSizePerHead =
      config.valueSizePerHead cache.mMaxLength cache.mFlashAttentionUpperKv

/-- The files hold the heads and nothing else. -/
structure Exact (config : KVConfig) (cache : DiskCache T) : Prop where
  key : cache.keyFileSize = config.mKvNumHead * cache.mCurrentKeySizePerHead
  value : cache.valueFileSize = config.mKvNumHead * cache.mCurrentValueSizePerHead

/-- The first rows of two caches are the same. -/
def SameRows (config : KVConfig) (count : Nat) (cache cache' : DiskCache T) : Prop :=
  ∀ h < config.mKvNumHead, ∀ seq < count, ∀ dim < config.mHeadDim,
    cache'.keyAt config h seq dim = cache.keyAt config h seq dim ∧
      cache'.valueAt config h seq dim = cache.valueAt config h seq dim

omit [Zero T] in
theorem SameRows.trans {count : Nat} {first second third : DiskCache T}
    (same : SameRows config count first second) (same' : SameRows config count second third) :
    SameRows config count first third := by
  intro h hLess seq less dim inside
  rcases same h hLess seq less dim inside with ⟨key, value⟩
  rcases same' h hLess seq less dim inside with ⟨key', value'⟩
  exact ⟨key'.trans key, value'.trans value⟩

omit [Zero T] in
theorem SameRows.mono {count count' : Nat} {cache cache' : DiskCache T}
    (same : SameRows config count' cache cache') (le : count ≤ count') :
    SameRows config count cache cache' :=
  fun h hLess seq less => same h hLess seq (lt_of_lt_of_le less le)

/-! ## New rows -/

variable {cache : DiskCache T}

theorem onUpdateKV_key (sized : Sized config cache) {add : Nat}
    (room : cache.mPastLength + add ≤ cache.mMaxLength) (rows : Rows T)
    {h offset : Nat} (hLess : h < config.mKvNumHead)
    (inside : offset < cache.mCurrentKeySizePerHead) :
    (cache.onUpdateKV config rows add).mMapKeyAddr (h * cache.mCurrentKeySizePerHead + offset) =
      writeAll (processKey config cache.mPastLength rows.key add h)
        (behind (h * cache.mCurrentKeySizePerHead) cache.mMapKeyAddr) offset := by
  refine forSegments_at ?_ hLess inside _
  intro h'
  rw [sized.keySize]
  exact processKey_within room rows.key h'

theorem onUpdateKV_value (sized : Sized config cache)
    (positive : 0 < cache.mFlashAttentionUpperKv) {add : Nat}
    (room : cache.mPastLength + add ≤ cache.mMaxLength) (rows : Rows T)
    {h offset : Nat} (hLess : h < config.mKvNumHead)
    (inside : offset < cache.mCurrentValueSizePerHead) :
    (cache.onUpdateKV config rows add).mMapValueAddr (h * cache.mCurrentValueSizePerHead + offset) =
      writeAll (processValue config cache.mPastLength cache.mFlashAttentionUpperKv rows add h)
        (behind (h * cache.mCurrentValueSizePerHead) cache.mMapValueAddr) offset := by
  refine forSegments_at ?_ hLess inside _
  intro h'
  rw [sized.valueSize]
  exact processValue_within positive room rows h'

omit [Zero T] in
theorem Sized.upper_pos (sized : Sized config cache) (positive : 0 < cache.mMaxLength) :
    0 < cache.mFlashAttentionUpperKv := by
  rw [sized.upper]
  exact KVConfig.upperKv_pos positive

omit [Zero T] in
theorem Sized.keyIndex_lt (sized : Sized config cache) {seq dim : Nat}
    (less : seq < cache.mMaxLength) (inside : dim < config.mHeadDim) :
    config.keyIndex seq dim < cache.mCurrentKeySizePerHead := by
  rw [sized.keySize]
  exact KVConfig.keyIndex_lt less inside

omit [Zero T] in
theorem Sized.valueIndex_lt (sized : Sized config cache) {seq dim : Nat}
    (less : seq < cache.mMaxLength) (inside : dim < config.mHeadDim) :
    config.valueIndex cache.mFlashAttentionUpperKv seq dim <
      cache.mCurrentValueSizePerHead := by
  have upper_pos := sized.upper_pos (zero_lt_of_lt less)
  rw [sized.valueSize]
  exact KVConfig.valueIndex_lt upper_pos less inside

theorem onUpdateKV_sameRows (sized : Sized config cache) {add : Nat}
    (room : cache.mPastLength + add ≤ cache.mMaxLength) (rows : Rows T) :
    SameRows config cache.mPastLength cache (cache.onUpdateKV config rows add) := by
  intro h hLess seq less dim inside
  have inCache : seq < cache.mMaxLength := by
    omega
  have upper_pos := sized.upper_pos (zero_lt_of_lt inCache)
  constructor
  · show (cache.onUpdateKV config rows add).mMapKeyAddr
          (h * cache.mCurrentKeySizePerHead + config.keyIndex seq dim) = _
    rw [onUpdateKV_key sized room rows hLess (sized.keyIndex_lt inCache inside)]
    exact (processKey_adds _ rows.key add h _).old seq dim less inside
  · show (cache.onUpdateKV config rows add).mMapValueAddr (h * cache.mCurrentValueSizePerHead +
            config.valueIndex cache.mFlashAttentionUpperKv seq dim) = _
    rw [onUpdateKV_value sized upper_pos room rows hLess (sized.valueIndex_lt inCache inside)]
    exact (processValue_adds upper_pos _ rows add h _).old seq dim less inside

theorem onUpdateKV_sized (sized : Sized config cache) (rows : Rows T) (add : Nat) :
    Sized config (cache.onUpdateKV config rows add) :=
  ⟨sized.upper, sized.keySize, sized.valueSize⟩

/-! ## Larger files -/

/-- The copy of one group, of all groups of all heads. -/
def copyGroup (config : KVConfig) (mMaxLength oldMaxLength : Nat)
    (prevValue buffer : Buffer T) (group : Nat) : Buffer T :=
  let currentStride1 := roundUp mMaxLength config.lP * config.hP
  let prevStride1 := roundUp oldMaxLength config.lP * config.hP
  let cleared :=
    if config.lP > 1 then
      fill (group * currentStride1) currentStride1 0 buffer
    else
      buffer
  copy (group * currentStride1) prevValue (group * prevStride1) prevStride1 cleared

theorem copyGroups_eq (mMaxLength oldMaxLength : Nat) (prevValue buffer : Buffer T) :
    copyGroups config mMaxLength oldMaxLength prevValue buffer =
      (List.range (config.mKvNumHead * upDiv config.mHeadDim config.hP)).foldl
        (copyGroup config mMaxLength oldMaxLength prevValue) buffer := by
  have place :
      ∀ h d stride : Nat, h * (stride * upDiv config.mHeadDim config.hP) + d * stride =
          (h * upDiv config.mHeadDim config.hP + d) * stride := by
    intro h d stride
    ring
  rw [← foldl_nested]
  unfold copyGroups copyGroup
  simp only [place]

theorem copyGroup_other {mMaxLength oldMaxLength : Nat} (larger : oldMaxLength ≤ mMaxLength)
    {group address : Nat}
    (other :
      address < group * (roundUp mMaxLength config.lP * config.hP) ∨
        (group + 1) * (roundUp mMaxLength config.lP * config.hP) ≤ address)
    (prevValue buffer : Buffer T) :
    copyGroup config mMaxLength oldMaxLength prevValue buffer group address = buffer address := by
  have shorter :
      roundUp oldMaxLength config.lP * config.hP ≤ roundUp mMaxLength config.lP * config.hP :=
    mul_le_mul_right _ (mul_le_mul_right _ (upDiv_mono _ larger))
  rw [succ_mul] at other
  unfold copyGroup
  rw [copy_other (by omega)]
  split
  · exact fill_other (by omega) 0 buffer
  · rfl

/-- What a group holds behind the copy, where the buffer was cleared before. -/
theorem copyGroups_at {mMaxLength oldMaxLength : Nat} (larger : oldMaxLength ≤ mMaxLength)
    (prevValue buffer : Buffer T) {group offset : Nat}
    (less : group < config.mKvNumHead * upDiv config.mHeadDim config.hP)
    (inside : offset < roundUp mMaxLength config.lP * config.hP)
    (clear : buffer (group * (roundUp mMaxLength config.lP * config.hP) + offset) = 0) :
    copyGroups config mMaxLength oldMaxLength prevValue buffer
        (group * (roundUp mMaxLength config.lP * config.hP) + offset) =
      if offset < roundUp oldMaxLength config.lP * config.hP then
        prevValue (group * (roundUp oldMaxLength config.lP * config.hP) + offset)
      else
        0 := by
  have later :
      ∀ j, group < j → j < config.mKvNumHead * upDiv config.mHeadDim config.hP →
        ∀ memory : Buffer T, copyGroup config mMaxLength oldMaxLength prevValue memory j
              (group * (roundUp mMaxLength config.lP * config.hP) + offset) =
            memory (group * (roundUp mMaxLength config.lP * config.hP) + offset) := by
    intro j after _ memory
    have next :
        (group + 1) * (roundUp mMaxLength config.lP * config.hP) ≤
          j * (roundUp mMaxLength config.lP * config.hP) :=
      mul_le_mul_right _ after
    rw [succ_mul] at next
    exact copyGroup_other larger (Or.inl (by omega)) prevValue memory
  have earlier : (List.range group).foldl
          (copyGroup config mMaxLength oldMaxLength prevValue) buffer
          (group * (roundUp mMaxLength config.lP * config.hP) + offset) =
        0 := by
    refine (foldl_untouched _ ?_ buffer).trans clear
    intro j member memory
    have next :
        (j + 1) * (roundUp mMaxLength config.lP * config.hP) ≤
          group * (roundUp mMaxLength config.lP * config.hP) :=
      mul_le_mul_right _ (mem_range.mp member)
    exact copyGroup_other larger (Or.inr (by omega)) prevValue memory
  rw [copyGroups_eq, foldl_range_last less later, copyGroup]
  by_cases copied : offset < roundUp oldMaxLength config.lP * config.hP
  · rw [if_pos copied]
    exact copy_at _ prevValue _ copied _
  · rw [if_neg copied, copy_other (Or.inr (by omega))]
    split
    · exact fill_at (by omega) 0 _
    · exact earlier

section Expansion

variable {oldMaxLength oldKeySize oldValueSize keySize valueSize : Nat}
  {prevKey prevValue : Buffer T}

theorem expandKVCacheInDisk_key {h offset : Nat} (hLess : h < config.mKvNumHead)
    (inside : offset < cache.mCurrentKeySizePerHead) (copied : offset < oldKeySize) :
    (expandKVCacheInDisk config cache oldMaxLength
          (config.mKvNumHead * oldKeySize) oldValueSize keySize valueSize
          prevKey prevValue).mMapKeyAddr
        (h * cache.mCurrentKeySizePerHead + offset) =
      prevKey (h * oldKeySize + offset) := by
  have perHead : config.mKvNumHead * oldKeySize / config.mKvNumHead = oldKeySize :=
    Nat.mul_div_cancel_left _ (Nat.zero_lt_of_lt hLess)
  show copies _ prevKey (config.mKvNumHead * oldKeySize / config.mKvNumHead)
      (config.mKvNumHead * oldKeySize / config.mKvNumHead) config.mKvNumHead _
      _ = _
  rw [perHead]
  exact copies_at hLess inside copied prevKey _ _

theorem expandKVCacheInDisk_flash (flash : config.mUseFlashAttention = true) {h offset : Nat}
    (hLess : h < config.mKvNumHead) (inside : offset < cache.mCurrentValueSizePerHead)
    (inFile : h * cache.mCurrentValueSizePerHead + offset < valueSize) :
    (expandKVCacheInDisk config cache oldMaxLength oldKeySize
          (config.mKvNumHead * oldValueSize) keySize valueSize prevKey prevValue).mMapValueAddr
        (h * cache.mCurrentValueSizePerHead + offset) =
      if offset < oldValueSize then
        prevValue (h * oldValueSize + offset)
      else
        0 := by
  have perHead : config.mKvNumHead * oldValueSize / config.mKvNumHead = oldValueSize :=
    Nat.mul_div_cancel_left _ (Nat.zero_lt_of_lt hLess)
  simp only [expandKVCacheInDisk, if_pos flash, perHead]
  by_cases copied : offset < oldValueSize
  · rw [if_pos copied]
    exact copies_at hLess inside copied prevValue _ _
  · rw [if_neg copied, copies_gap h inside (Nat.le_of_not_lt copied) prevValue]
    exact fill_at ⟨zero_le _, by omega⟩ 0 _

theorem expandKVCacheInDisk_noFlash (noFlash : ¬config.mUseFlashAttention = true)
    (larger : oldMaxLength ≤ cache.mMaxLength) {group offset : Nat}
    (less : group < config.mKvNumHead * upDiv config.mHeadDim config.hP)
    (inside : offset < roundUp cache.mMaxLength config.lP * config.hP)
    (inFile : group * (roundUp cache.mMaxLength config.lP * config.hP) + offset < valueSize) :
    (expandKVCacheInDisk config cache oldMaxLength oldKeySize oldValueSize
          keySize valueSize prevKey prevValue).mMapValueAddr
        (group * (roundUp cache.mMaxLength config.lP * config.hP) + offset) =
      if offset < roundUp oldMaxLength config.lP * config.hP then
        prevValue (group * (roundUp oldMaxLength config.lP * config.hP) + offset)
      else
        0 := by
  simp only [expandKVCacheInDisk, if_neg noFlash]
  refine copyGroups_at larger prevValue _ less inside ?_
  exact fill_at ⟨zero_le _, by omega⟩ 0 _

end Expansion

/-- The place of an element in a group, where the groups are not in chunks. -/
def inGroup (config : KVConfig) (seq dim : Nat) : Nat :=
  (seq / config.lP * config.hP + dim % config.hP) * config.lP + seq % config.lP

/-- Without chunks the groups of all heads lie one behind the other. -/
theorem valueSize_oneChunk (length : Nat) :
    config.valueSizePerHead length length = upDiv config.mHeadDim config.hP *
        (roundUp length config.lP * config.hP) := by
  rcases Nat.eq_zero_or_pos length with rfl | positive
  · rw [KVConfig.valueSizePerHead, roundUp_eq 0, upDiv_zero, upDiv_zero,
      zero_mul, zero_mul, zero_mul, mul_zero]
  · rw [valueSizePerHead_oneChunk positive, roundUp_eq config.mHeadDim]
    ring

theorem valuePlace_oneChunk {length seq : Nat} (less : seq < length) (h dim : Nat) :
    h * config.valueSizePerHead length length + config.valueIndex length seq dim =
      (h * upDiv config.mHeadDim config.hP + dim / config.hP) *
          (roundUp length config.lP * config.hP) +
        inGroup config seq dim := by
  rw [valueSize_oneChunk, valueIndex_oneChunk less, inGroup]
  ring

theorem group_lt {h dim : Nat} (hLess : h < config.mKvNumHead) (inside : dim < config.mHeadDim) :
    h * upDiv config.mHeadDim config.hP + dim / config.hP <
      config.mKvNumHead * upDiv config.mHeadDim config.hP :=
  digits_lt hLess (div_lt_upDiv config.hP_pos inside)

/-- The cache that `expand` makes, where it makes one. -/
def resize (config : KVConfig) (cache : DiskCache T) (mMaxLength : Nat) : DiskCache T :=
  let resized := cache.setSizes config mMaxLength
  expandKVCacheInDisk config resized cache.mMaxLength
    (config.mKvNumHead * cache.mCurrentKeySizePerHead)
    (config.mKvNumHead * cache.mCurrentValueSizePerHead)
    (config.mKvNumHead * resized.mCurrentKeySizePerHead)
    (config.mKvNumHead * resized.mCurrentValueSizePerHead)
    cache.mMapKeyAddr cache.mMapValueAddr

theorem resize_sameRows (sized : Sized config cache) {mMaxLength : Nat}
    (larger : cache.mMaxLength ≤ mMaxLength) :
    SameRows config cache.mMaxLength cache (resize config cache mMaxLength) := by
  intro h hLess seq less dim inside
  let resized := cache.setSizes config mMaxLength
  have lessNew : seq < mMaxLength := lt_of_lt_of_le less larger
  have positive : 0 < mMaxLength := zero_lt_of_lt lessNew
  constructor
  · exact expandKVCacheInDisk_key hLess (KVConfig.keyIndex_lt lessNew inside)
        (sized.keyIndex_lt less inside)
  · by_cases flash : config.mUseFlashAttention = true
    · have sameUpper : resized.mFlashAttentionUpperKv = cache.mFlashAttentionUpperKv := by
        rw [sized.upper, KVConfig.upperKv_flash flash]
        exact KVConfig.upperKv_flash flash mMaxLength
      have inNew :
          config.valueIndex resized.mFlashAttentionUpperKv seq dim <
            resized.mCurrentValueSizePerHead :=
        KVConfig.valueIndex_lt (KVConfig.upperKv_pos positive) lessNew inside
      have inOld := sized.valueIndex_lt less inside
      rw [← sameUpper] at inOld
      refine (expandKVCacheInDisk_flash flash hLess inNew (digits_lt hLess inNew)).trans ?_
      rw [if_pos inOld, sameUpper]
      rfl
    · have oldUpper : cache.mFlashAttentionUpperKv = cache.mMaxLength := by
        rw [sized.upper, KVConfig.upperKv_noFlash flash]
      have newUpper : config.upperKv mMaxLength = mMaxLength :=
        KVConfig.upperKv_noFlash flash mMaxLength
      have inOld : inGroup config seq dim < roundUp cache.mMaxLength config.lP * config.hP :=
        inner_lt less dim
      have inNew : inGroup config seq dim < roundUp mMaxLength config.lP * config.hP :=
        inner_lt lessNew dim
      have newPlace :
          h * resized.mCurrentValueSizePerHead +
              config.valueIndex resized.mFlashAttentionUpperKv seq dim =
            (h * upDiv config.mHeadDim config.hP + dim / config.hP) *
                (roundUp mMaxLength config.lP * config.hP) +
              inGroup config seq dim := by
        show h * config.valueSizePerHead mMaxLength (config.upperKv mMaxLength) +
              config.valueIndex (config.upperKv mMaxLength) seq dim = _
        rw [newUpper]
        exact valuePlace_oneChunk lessNew h dim
      have inFile :
          (h * upDiv config.mHeadDim config.hP + dim / config.hP) *
                (roundUp mMaxLength config.lP * config.hP) +
              inGroup config seq dim <
            config.mKvNumHead * resized.mCurrentValueSizePerHead := by
        rw [← newPlace]
        refine digits_lt hLess ?_
        exact KVConfig.valueIndex_lt (KVConfig.upperKv_pos positive) lessNew inside
      show (expandKVCacheInDisk config resized ..).mMapValueAddr
            (h * resized.mCurrentValueSizePerHead +
              config.valueIndex resized.mFlashAttentionUpperKv seq dim) =
          cache.mMapValueAddr (h * cache.mCurrentValueSizePerHead +
              config.valueIndex cache.mFlashAttentionUpperKv seq dim)
      rw [newPlace, sized.valueSize, oldUpper, valuePlace_oneChunk less]
      refine (expandKVCacheInDisk_noFlash flash larger (group_lt hLess inside) inNew
          inFile).trans ?_
      rw [if_pos inOld]

/-- What `expand` does: nothing, or a resize to a larger capacity. -/
theorem expand_cases (cache : DiskCache T) (kvMeta : KVMeta) :
    (kvSeqLen kvMeta ≤ cache.mMaxLength ∧ expand config cache kvMeta = cache) ∨
      ∃ mMaxLength, cache.mMaxLength ≤ mMaxLength ∧ kvSeqLen kvMeta ≤ mMaxLength ∧
        expand config cache kvMeta = resize config cache mMaxLength := by
  unfold expand
  simp only
  split
  · next larger =>
    refine Or.inr ⟨(kvSeqLen kvMeta).toNat + config.mExpandChunk, ?_, ?_, rfl⟩
    · omega
    · omega
  · next enough => exact Or.inl ⟨by omega, rfl⟩

theorem resize_sized (cache : DiskCache T) (mMaxLength : Nat) :
    Sized config (resize config cache mMaxLength) :=
  ⟨rfl, rfl, rfl⟩

theorem resize_exact (cache : DiskCache T) (mMaxLength : Nat) :
    Exact config (resize config cache mMaxLength) :=
  ⟨rfl, rfl⟩

omit [Zero T] in
theorem moveKV_value (sized : Sized config cache) (src : Nat) {dst size : Nat}
    (room : dst + size ≤ cache.mMaxLength) {h offset : Nat} (hLess : h < config.mKvNumHead)
    (inside : offset < cache.mCurrentValueSizePerHead) :
    (moveKV config cache src dst size).mMapValueAddr (h * cache.mCurrentValueSizePerHead + offset) =
      moveRows (config.valueIndex cache.mFlashAttentionUpperKv) config.mHeadDim src dst size
        (behind (h * cache.mCurrentValueSizePerHead) cache.mMapValueAddr) offset := by
  refine forSegments_at ?_ hLess inside _
  intro _ buffer address outside
  apply moveRows_other
  intro i dim less inside
  have inHead := @Sized.valueIndex_lt _ config cache sized (dst + i) dim (by omega) inside
  omega

omit [Zero T] in
theorem moveKV_sameRows (sized : Sized config cache) {src dst size : Nat}
    (room : dst + size ≤ cache.mMaxLength) (fits : dst ≤ cache.mMaxLength) :
    SameRows config dst cache (moveKV config cache src dst size) := by
  intro h hLess seq less dim inside
  have inCache : seq < cache.mMaxLength := lt_of_lt_of_le less fits
  have upper_pos := sized.upper_pos (zero_lt_of_lt inCache)
  constructor
  · have within : Within cache.mCurrentKeySizePerHead
          (moveRows config.keyIndex config.mHeadDim src dst size (T := T)) := by
      intro buffer address outside
      apply moveRows_other
      intro i dim less inside
      have inHead := @Sized.keyIndex_lt _ config cache sized (dst + i) dim (by omega) inside
      omega
    refine (forSegments_at (fun _ => within) hLess (sized.keyIndex_lt inCache inside) _).trans ?_
    apply moveRows_other
    intro i dim' iLess inside' same
    have sameSeq := (KVConfig.keyIndex_inj inside inside' same).1
    omega
  · refine (moveKV_value sized src room hLess (sized.valueIndex_lt inCache inside)).trans ?_
    apply moveRows_other
    intro i dim' iLess inside' same
    have sameSeq := (KVConfig.valueIndex_inj upper_pos inside inside' same).1
    omega

/-! ## A forward -/

omit [Zero T] in
/-- A claim about the cache goes through the moves of the reserved ranges. -/
theorem foldl_moveKV_induct {motive : DiskCache T → Prop} {count start past : Nat}
    {reserve : List (Nat × Nat)} {state : DiskCache T × Nat}
    (inRemoved : ∀ range ∈ reserve, 0 < range.2 ∧ start + (range.1 + range.2) ≤ past)
    (behindStart : count ≤ start) (behindCount : count ≤ state.2)
    (room : state.2 + (reserve.map Prod.snd).sum ≤ state.1.mMaxLength)
    (pastFits : past ≤ state.1.mMaxLength) (first : motive state.1)
    (moves :
      ∀ cache src dst size, motive cache → count ≤ src → count ≤ dst →
        src + size ≤ cache.mMaxLength → dst + size ≤ cache.mMaxLength →
        motive (moveKV config cache src dst size)) :
    let moved :=
      reserve.foldl (fun (state : DiskCache T × Nat) range =>
          (moveKV config state.1 (start + range.1) state.2 range.2, state.2 + range.2))
        state
    motive moved.1 ∧ moved.1.mMaxLength = state.1.mMaxLength ∧
      moved.2 = state.2 + (reserve.map Prod.snd).sum := by
  induction reserve generalizing state with
  | nil => exact ⟨first, rfl, rfl⟩
  | cons range rest ih =>
    rw [map_cons, sum_cons] at room ⊢
    have fits := (inRemoved range mem_cons_self).2
    rcases @ih (moveKV config state.1 (start + range.1) state.2 range.2, state.2 + range.2)
          (fun next member => inRemoved next (mem_cons_of_mem _ member))
          (le_add_right_of_le behindCount)
          (by rw [add_assoc]; exact room) pastFits
          (moves _ _ _ _ first (le_add_right_of_le behindStart)
            behindCount (by omega) (by omega)) with
      ⟨holds, capacity, length⟩
    exact ⟨holds, capacity, length.trans (add_assoc ..)⟩

/-- The length behind `onRealloc`. -/
def reallocLength (config : KVConfig) (past : Nat) (round : DiskRound T) : Nat :=
  if round.reserve = [] ∨ config.mKeyQuantMode ≠ .none ∨
      config.mValueQuantMode ≠ .none then
    past - round.remove
  else
    past - round.remove + (round.reserve.map Prod.snd).sum

/-- The meta data that a forward sees. -/
def metaOf (cache : DiskCache T) (round : DiskRound T) : KVMeta :=
  { previous := cache.mPastLength
    remove := round.remove
    reserve := round.reserve
    add := round.add }

omit [Zero T] in
theorem Keeps.kvSeqLen_eq {count : Nat} {round : DiskRound T} (keeps : Keeps count cache round) :
    kvSeqLen (metaOf cache round) =
      (cache.mPastLength - round.remove + (round.reserve.map Prod.snd).sum + round.add : Nat) := by
  have positive : ∀ range ∈ (metaOf cache round).reserve, 0 < range.2 :=
    fun range member => (keeps.ranges range member).1
  have removed := keeps.kept
  rw [kvSeqLen, computeReverseSize_eq positive]
  simp only [metaOf]
  omega

/--
A claim about the cache goes through `onRealloc`: through the resize, and
through the moves, which are all behind the rows that are kept.
-/
theorem onRealloc_induct {motive : DiskCache T → Prop} {count : Nat} {round : DiskRound T}
    (keeps : Keeps count cache round)
    (fits : cache.mPastLength ≤ cache.mMaxLength) (first : motive cache)
    (resizes :
      ∀ mMaxLength, cache.mMaxLength ≤ mMaxLength → motive (resize config cache mMaxLength))
    (moves :
      ∀ cache src dst size, motive cache → count ≤ src → count ≤ dst →
        src + size ≤ cache.mMaxLength → dst + size ≤ cache.mMaxLength →
        motive (moveKV config cache src dst size))
    (lengths :
      ∀ (cache : DiskCache T) mPastLength, motive cache →
        motive { cache with mPastLength := mPastLength }) :
    let realloc := onRealloc config cache (metaOf cache round)
    motive realloc ∧ realloc.mPastLength = reallocLength config cache.mPastLength round ∧
      realloc.mPastLength + round.add ≤ realloc.mMaxLength := by
  have seqLen := keeps.kvSeqLen_eq
  have removed := keeps.kept
  obtain ⟨expanded, isExpanded⟩ : ∃ expanded, expand config cache (metaOf cache round) = expanded :=
    ⟨_, rfl⟩
  have facts :
      motive expanded ∧ expanded.mPastLength = cache.mPastLength ∧
        cache.mMaxLength ≤ expanded.mMaxLength ∧
        kvSeqLen (metaOf cache round) ≤ expanded.mMaxLength := by
    rcases @expand_cases T _ config cache (metaOf cache round) with
      ⟨enough, same⟩ | ⟨mMaxLength, larger, enough, same⟩
    · rw [← isExpanded, same]
      exact ⟨first, rfl, le_refl _, enough⟩
    · rw [← isExpanded, same]
      exact ⟨resizes mMaxLength larger, rfl, larger, enough⟩
  rcases facts with ⟨holds, samePast, larger, enough⟩
  rw [seqLen] at enough
  have room := Int.ofNat_le.mp enough
  unfold onRealloc reallocLength
  simp only [isExpanded, samePast]
  by_cases drops :
      (metaOf cache round).reserve = [] ∨ config.mKeyQuantMode ≠ .none ∨
        config.mValueQuantMode ≠ .none
  · rw [if_pos drops, @if_pos (round.reserve = [] ∨ _) _ drops]
    refine ⟨lengths _ _ holds, rfl, ?_⟩
    show cache.mPastLength - round.remove + round.add ≤ expanded.mMaxLength
    omega
  · rw [if_neg drops, @if_neg (round.reserve = [] ∨ _) _ drops]
    rcases @foldl_moveKV_induct T config motive count
          (cache.mPastLength - round.remove) cache.mPastLength round.reserve
          (expanded, cache.mPastLength - round.remove)
          (fun range member => by
            have inside := keeps.ranges range member
            omega)
          (by omega) (by simp only; omega) (by simp only; omega)
          (by simp only; omega) holds moves with
      ⟨moved, capacity, length⟩
    have roomBehind := room
    rw [← length, ← capacity] at roomBehind
    exact ⟨lengths _ _ moved, length, roomBehind⟩

omit [Zero T] in
theorem le_reallocLength {count : Nat} {round : DiskRound T} (keeps : Keeps count cache round) :
    count ≤ reallocLength config cache.mPastLength round := by
  have removed := keeps.kept
  unfold reallocLength
  split <;> omega

theorem step_sameRows (sized : Sized config cache) (fits : cache.mPastLength ≤ cache.mMaxLength)
    {count : Nat} {round : DiskRound T} (keeps : Keeps count cache round) :
    Sized config (cache.step config round) ∧ (cache.step config round).mPastLength ≤
        (cache.step config round).mMaxLength ∧
      SameRows config count cache (cache.step config round) := by
  have removed := keeps.kept
  rcases @onRealloc_induct T _ config cache
        (fun other => Sized config other ∧ SameRows config count cache other)
        count round keeps fits ⟨sized, fun _ _ _ _ _ _ => ⟨rfl, rfl⟩⟩
        (fun mMaxLength larger =>
          ⟨resize_sized cache mMaxLength, (resize_sameRows sized larger).mono (by omega)⟩)
        (fun other src dst size holds _ behind _ room =>
          ⟨⟨holds.1.upper, holds.1.keySize, holds.1.valueSize⟩, holds.2.trans
              ((moveKV_sameRows holds.1 room (by omega)).mono behind)⟩)
        (fun other _ holds =>
          ⟨⟨holds.1.upper, holds.1.keySize, holds.1.valueSize⟩, holds.2⟩) with
    ⟨⟨sized', same⟩, length, room⟩
  have behind : count ≤ (onRealloc config cache (metaOf cache round)).mPastLength := by
    rw [length]
    exact le_reallocLength keeps
  refine ⟨onUpdateKV_sized sized' round.rows round.add, room, ?_⟩
  exact same.trans ((onUpdateKV_sameRows sized' room round.rows).mono behind)

theorem step_exact (exact' : Exact config cache) (fits : cache.mPastLength ≤ cache.mMaxLength)
    {count : Nat} {round : DiskRound T} (keeps : Keeps count cache round) :
    Exact config (cache.step config round) := by
  have realloc := (@onRealloc_induct T _ config cache (fun other => Exact config other) count
        round keeps fits exact' (fun mMaxLength _ => resize_exact cache mMaxLength)
        (fun _ _ _ _ holds _ _ _ _ => ⟨holds.key, holds.value⟩)
        (fun _ _ holds => ⟨holds.key, holds.value⟩)).1
  exact ⟨realloc.key, realloc.value⟩

end DiskCache

end Mnn.Cpu
