import Mnn.Cpu.KVDiskRows

/-!
# Reading a prefix of the KV cache

The run that reads a prefix finds its files with the length and the chunks of
the run that wrote it, and takes both for its own.  What it reads for a value is
followed to the place in the files where it comes from.
-/

namespace Mnn.Cpu

open Mnn.Core
open Mnn.Foundation.Segments
open Nat

namespace KVConfig

/--
The two runs have the same model and the same packing.  Neither quantises keys
or values, which files of a prefix do not support.
-/
structure SameLayer (writer reader : KVConfig) : Prop where
  writerModes : writer.mKeyQuantMode = .none ∧ writer.mValueQuantMode = .none
  readerModes : reader.mKeyQuantMode = .none ∧ reader.mValueQuantMode = .none
  lP : reader.lP = writer.lP
  hP : reader.hP = writer.hP
  mBytes : reader.mBytes = writer.mBytes
  mKvNumHead : reader.mKvNumHead = writer.mKvNumHead
  mHeadDim : reader.mHeadDim = writer.mHeadDim

variable {writer reader : KVConfig}

theorem SameLayer.keyIndex (same : SameLayer writer reader) (seq dim : Nat) :
    reader.keyIndex seq dim = writer.keyIndex seq dim := by
  unfold KVConfig.keyIndex
  rw [same.lP, same.hP, same.mHeadDim]

theorem SameLayer.valueIndex (same : SameLayer writer reader) (upper seq dim : Nat) :
    reader.valueIndex upper seq dim = writer.valueIndex upper seq dim := by
  unfold KVConfig.valueIndex
  rw [same.lP, same.hP, same.mHeadDim]

theorem SameLayer.inGroup (same : SameLayer writer reader) (seq dim : Nat) :
    DiskCache.inGroup reader seq dim = DiskCache.inGroup writer seq dim := by
  unfold DiskCache.inGroup
  rw [same.lP, same.hP]

/-- The length that is found in the files of a run with this capacity. -/
def oldLength (writer : KVConfig) (mMaxLength : Nat) : Nat := min (roundUp mMaxLength writer.hP)
    (upDiv mMaxLength (writer.upperKv mMaxLength) * roundUp (writer.upperKv mMaxLength) writer.lP)

/-- Where a value lies in the files of a run with this capacity. -/
def writtenPlace (writer : KVConfig) (mMaxLength h seq dim : Nat) : Nat :=
  h * writer.valueSizePerHead mMaxLength (writer.upperKv mMaxLength) +
    writer.valueIndex (writer.upperKv mMaxLength) seq dim

/-- Where the run that reads takes a value from. -/
def readPlace (writer reader : KVConfig) (mMaxLength h seq dim : Nat) : Nat :=
  if reader.mUseFlashAttention then
    h * writer.valueSizePerHead mMaxLength (writer.upperKv mMaxLength) +
      writer.valueIndex reader.flashAttentionChunkKv seq dim
  else
    (h * upDiv writer.mHeadDim writer.hP + dim / writer.hP) *
        (roundUp (writer.oldLength mMaxLength) writer.lP * writer.hP) +
      DiskCache.inGroup writer seq dim

theorem le_upDiv_mul {x y z : Nat} (positive : 0 < y) (le : y ≤ z) : x ≤ upDiv x y * z :=
  (le_roundUp positive).trans (mul_le_mul_left _ le)

theorem le_oldLength (writer : KVConfig) (mMaxLength : Nat) :
    mMaxLength ≤ writer.oldLength mMaxLength := by
  rcases Nat.eq_zero_or_pos mMaxLength with rfl | positive
  · exact zero_le _
  · refine Nat.le_min.mpr ⟨le_roundUp writer.hP_pos, ?_⟩
    exact le_upDiv_mul (upperKv_pos positive) (le_roundUp writer.lP_pos)

end KVConfig

namespace DiskCache

open CPUKVCacheManager

variable {T : Type*} [Zero T] {config : KVConfig} {cache : DiskCache T}

/-! ## The run that writes -/

variable {count h seq dim : Nat}

theorem step_length (fits : cache.mPastLength ≤ cache.mMaxLength)
    {round : DiskRound T} (keeps : Keeps count cache round) :
    (cache.step config round).mPastLength =
      reallocLength config cache.mPastLength round + round.add := by
  have length := (@onRealloc_induct T _ config cache (fun _ => True) count round keeps fits
        trivial (fun _ _ => trivial) (fun _ _ _ _ _ _ _ _ _ => trivial)
        (fun _ _ _ => trivial)).2.1
  exact congrArg (· + round.add) length

/-- What holds of the cache in each run that writes a prefix. -/
structure Written (config : KVConfig) (count : Nat) (cache : DiskCache T) :
    Prop where
  sized : Sized config cache
  fits : cache.mPastLength ≤ cache.mMaxLength
  exact' : Exact config cache
  stored : count ≤ cache.mPastLength

omit [Zero T] in
theorem piece_keeps (length : cache.mPastLength = count) (add : Nat)
    (rows : Rows T) : Keeps count cache ⟨0, [], add, rows⟩ :=
  ⟨length.ge, fun _ member => nomatch member⟩

theorem Written.step (written : Written config count cache) {round : DiskRound T}
    (keeps : Keeps count cache round) :
    Written config count (cache.step config round) := by
  rcases step_sameRows written.sized written.fits keeps with
    ⟨sized, fits, -⟩
  refine ⟨sized, fits, step_exact written.exact' written.fits keeps, ?_⟩
  rw [step_length written.fits keeps]
  exact le_add_right_of_le (le_reallocLength keeps)

theorem Writes.written (writes : Writes config count cache) :
    Written config count cache := by
  induction writes with
  | first seq_len add rows less =>
    refine ⟨⟨rfl, rfl, rfl⟩, ?_, ⟨rfl, rfl⟩, ?_⟩
    · show 0 + add ≤ seq_len + config.mExpandChunk
      omega
    · exact Nat.le_add_left ..
  | @piece count cache add rows _ length written =>
    have keeps := piece_keeps length add rows
    have next := written.step keeps
    refine ⟨next.sized, next.fits, next.exact', ?_⟩
    rw [step_length written.fits keeps, reallocLength, if_pos (Or.inl rfl), length, Nat.sub_zero]
  | later round _ keeps written => exact written.step keeps

/-! ## The run that reads -/

section Reading

variable {writer reader : KVConfig} {written : DiskCache T} {count : Nat}

omit [Zero T] in
theorem lengthInFiles_eq (same : KVConfig.SameLayer writer reader)
    (stores : Written writer count written) (heads : 0 < writer.mKvNumHead)
    (dims : 0 < writer.mHeadDim) :
    lengthInFiles reader written.files = writer.oldLength written.mMaxLength := by
  have keyWidth : 0 < roundUp writer.mHeadDim writer.lP :=
    lt_of_lt_of_le dims (le_roundUp writer.lP_pos)
  have valueWidth : 0 < roundUp writer.mHeadDim writer.hP :=
    lt_of_lt_of_le dims (le_roundUp writer.hP_pos)
  have keys :
      written.keyFileSize = roundUp written.mMaxLength writer.hP *
          (writer.mKvNumHead * roundUp writer.mHeadDim writer.lP) := by
    rw [stores.exact'.key, stores.sized.keySize, KVConfig.keySizePerHead,
      roundUp_eq written.mMaxLength]
    ring
  have values :
      written.valueFileSize = upDiv written.mMaxLength (writer.upperKv written.mMaxLength) *
            roundUp (writer.upperKv written.mMaxLength) writer.lP *
          (writer.mKvNumHead * roundUp writer.mHeadDim writer.hP) := by
    rw [stores.exact'.value, stores.sized.valueSize, stores.sized.upper, KVConfig.valueSizePerHead]
    ring
  show min (written.keyFileSize / (reader.mKvNumHead * roundUp reader.mHeadDim reader.lP))
        (written.valueFileSize / (reader.mKvNumHead * roundUp reader.mHeadDim reader.hP)) =
      _
  rw [same.mKvNumHead, same.mHeadDim, same.lP, same.hP, keys, values,
    Nat.mul_div_cancel _ (mul_pos heads keyWidth),
    Nat.mul_div_cancel _ (mul_pos heads valueWidth), KVConfig.oldLength]

/-- The capacity that the run which reads begins with. -/
def prefixCapacity (reader : KVConfig) (old add count : Nat) : Nat :=
  if add + count > old then add + count + reader.mExpandChunk else old

theorem le_prefixCapacity (reader : KVConfig) (old add count : Nat) :
    old ≤ prefixCapacity reader old add count ∧
      count + add ≤ prefixCapacity reader old add count := by
  unfold prefixCapacity
  split <;> omega

section

variable (same : KVConfig.SameLayer writer reader) (stores : Written writer count written)

include same stores

/-- The cache behind `onAlloc`, in terms of the run that wrote the files. -/
theorem onAllocPrefix_eq (heads : 0 < writer.mKvNumHead) (dims : 0 < writer.mHeadDim) (add : Nat) :
    ∃ keySize valueSize,
      let mMaxLength :=
        prefixCapacity reader (writer.oldLength written.mMaxLength) add count
      let created :=
        (createKVCacheFile keySize valueSize : DiskCache T).setSizes reader mMaxLength
      reader.mKvNumHead * reader.valueSizePerHead mMaxLength (reader.upperKv mMaxLength) ≤
          valueSize ∧
        onAllocPrefix reader written.files add count =
          { expandKVCacheInDisk reader created (writer.oldLength written.mMaxLength)
              (reader.mKvNumHead * written.mCurrentKeySizePerHead)
              (reader.mKvNumHead * written.mCurrentValueSizePerHead) keySize
              valueSize written.mMapKeyAddr written.mMapValueAddr with
            mPastLength := count } := by
  let mMaxLength :=
    prefixCapacity reader (writer.oldLength written.mMaxLength) add count
  refine ⟨max (reader.mKvNumHead * roundUp mMaxLength reader.hP * roundUp reader.mHeadDim reader.lP)
        written.keyFileSize,
      max (reader.mKvNumHead * upDiv mMaxLength (reader.upperKv mMaxLength) *
          (roundUp reader.mHeadDim reader.hP * roundUp (reader.upperKv mMaxLength) reader.lP))
        written.valueFileSize,
      ?_, ?_⟩
  · refine le_trans (le_of_eq ?_) (le_max_left ..)
    rw [KVConfig.valueSizePerHead, mul_assoc]
  · have keys := stores.exact'.key
    have values := stores.exact'.value
    rw [← same.mKvNumHead] at keys values
    rw [← keys, ← values]
    unfold onAllocPrefix
    simp only
    rw [lengthInFiles_eq same stores heads dims]
    rfl

section

variable (add : Nat) (hLess : h < writer.mKvNumHead) (less : seq < count)
  (inside : dim < writer.mHeadDim)

include add hLess less inside

/-- The keys are found again, whatever the two runs are set to. -/
theorem onAllocPrefix_key :
    (onAllocPrefix reader written.files add count).keyAt reader h seq dim =
      written.keyAt writer h seq dim := by
  rcases onAllocPrefix_eq same stores (zero_lt_of_lt hLess) (zero_lt_of_lt inside) add with
    ⟨keySize, valueSize, -, isPrefix⟩
  have enough := le_prefixCapacity reader (writer.oldLength written.mMaxLength) add count
  have inOld : seq < written.mMaxLength := lt_of_lt_of_le less (stores.stored.trans stores.fits)
  have inNew := lt_of_lt_of_le less ((le_add_right ..).trans enough.2)
  rw [← same.mKvNumHead] at hLess
  rw [isPrefix, keyAt, keyAt, ← same.keyIndex]
  refine @expandKVCacheInDisk_key T _ reader _ (writer.oldLength written.mMaxLength)
      written.mCurrentKeySizePerHead
      (reader.mKvNumHead * written.mCurrentValueSizePerHead) keySize valueSize
      written.mMapKeyAddr written.mMapValueAddr h _ hLess ?_ ?_
  · refine KVConfig.keyIndex_lt inNew ?_
    rwa [same.mHeadDim]
  · rw [same.keyIndex]
    exact stores.sized.keyIndex_lt inOld inside

/-- A value is taken from its place in the files, if that is in the head. -/
theorem onAllocPrefix_value :
    (onAllocPrefix reader written.files add count).valueAt reader h seq dim =
      if reader.mUseFlashAttention = true ∧
          written.mCurrentValueSizePerHead ≤
            writer.valueIndex reader.flashAttentionChunkKv seq dim then
        0
      else
        written.mMapValueAddr (writer.readPlace reader written.mMaxLength h seq dim) := by
  rcases onAllocPrefix_eq same stores (zero_lt_of_lt hLess) (zero_lt_of_lt inside) add with
    ⟨keySize, valueSize, sizeLe, isPrefix⟩
  let old := writer.oldLength written.mMaxLength
  let mMaxLength := prefixCapacity reader old add count
  have enough := le_prefixCapacity reader old add count
  have inOld : seq < written.mMaxLength := lt_of_lt_of_le less (stores.stored.trans stores.fits)
  have inNew : seq < mMaxLength := lt_of_lt_of_le less ((le_add_right ..).trans enough.2)
  have inReader : dim < reader.mHeadDim := by
    rwa [same.mHeadDim]
  have hInReader : h < reader.mKvNumHead := by
    rwa [same.mKvNumHead]
  have inHead :
      reader.valueIndex (reader.upperKv mMaxLength) seq dim <
        reader.valueSizePerHead mMaxLength (reader.upperKv mMaxLength) :=
    KVConfig.valueIndex_lt (KVConfig.upperKv_pos (zero_lt_of_lt inNew)) inNew inReader
  have inFile :
      h * reader.valueSizePerHead mMaxLength (reader.upperKv mMaxLength) +
          reader.valueIndex (reader.upperKv mMaxLength) seq dim <
        valueSize :=
    lt_of_lt_of_le (digits_lt hInReader inHead) sizeLe
  let created :=
    (createKVCacheFile keySize valueSize : DiskCache T).setSizes reader mMaxLength
  rw [isPrefix, KVConfig.readPlace]
  show (expandKVCacheInDisk reader created old (reader.mKvNumHead * written.mCurrentKeySizePerHead)
          (reader.mKvNumHead * written.mCurrentValueSizePerHead) keySize
          valueSize written.mMapKeyAddr written.mMapValueAddr).mMapValueAddr
        (h * reader.valueSizePerHead mMaxLength (reader.upperKv mMaxLength) +
          reader.valueIndex (reader.upperKv mMaxLength) seq dim) =
      _
  by_cases flash : reader.mUseFlashAttention = true
  · refine (@expandKVCacheInDisk_flash T _ reader created old _ _ keySize valueSize
        _ _ flash h _ hInReader inHead inFile).trans ?_
    rw [KVConfig.upperKv_flash flash, same.valueIndex, if_pos flash,
      ← stores.sized.upper, ← stores.sized.valueSize]
    by_cases inWritten :
        writer.valueIndex reader.flashAttentionChunkKv seq dim < written.mCurrentValueSizePerHead
    · rw [if_pos inWritten, if_neg fun both => Nat.not_le_of_lt inWritten both.2]
    · rw [if_neg inWritten, if_pos ⟨flash, Nat.le_of_not_lt inWritten⟩]
  · have oneChunk : reader.upperKv mMaxLength = mMaxLength :=
      KVConfig.upperKv_noFlash flash mMaxLength
    rw [if_neg fun both => flash both.1, if_neg flash]
    rw [oneChunk, valuePlace_oneChunk inNew] at inFile
    rw [oneChunk, valuePlace_oneChunk inNew]
    have copied : inGroup reader seq dim < roundUp old reader.lP * reader.hP :=
      inner_lt (lt_of_lt_of_le inOld (writer.le_oldLength _)) dim
    refine (@expandKVCacheInDisk_noFlash T _ reader created old _ _ keySize valueSize
        _ _ flash enough.1 _ (inGroup reader seq dim)
        (group_lt hInReader inReader) (inner_lt inNew dim) inFile).trans ?_
    rw [if_pos copied, same.mHeadDim, same.hP, same.lP, same.inGroup]

end

end

theorem Reads.sameRows {files : PrefixFiles T} {read : DiskCache T}
    (reads : Reads reader files count read) :
    ∃ add, Sized reader read ∧ read.mPastLength ≤ read.mMaxLength ∧
        SameRows reader count (onAllocPrefix reader files add count) read := by
  have fits := fun add =>
    (le_add_right count add).trans
      (le_prefixCapacity reader (lengthInFiles reader files) add count).2
  induction reads with
  | alloc add =>
    exact ⟨add, ⟨rfl, rfl, rfl⟩, fits add, fun _ _ _ _ _ _ => ⟨rfl, rfl⟩⟩
  | first add rows =>
    have sized : Sized reader (onAllocPrefix reader files add count) := ⟨rfl, rfl, rfl⟩
    have room := (le_prefixCapacity reader (lengthInFiles reader files) add count).2
    exact ⟨add, onUpdateKV_sized sized rows add, room, onUpdateKV_sameRows sized room rows⟩
  | later round _ keeps ih =>
    rcases ih with ⟨add, sized, fits, same⟩
    rcases step_sameRows sized fits keeps with ⟨sized', fits', same'⟩
    exact ⟨add, sized', fits', same.trans same'⟩

end Reading

end DiskCache

/-!
# A single value in the files

A run that writes a prefix can be followed by one of the same lengths whose
files hold nothing but zeros and one value of the prefix.  It shows where the
run that reads takes the value from.
-/

namespace CPUKVCacheManager

variable {T : Type*} [Zero T] {config : KVConfig}

omit [Zero T] in
/-- What is behind a list of writes was there before, or is one of them. -/
theorem writeAll_cases (writes : List (Nat × T)) (buffer : Buffer T) (address : Nat) :
    writeAll writes buffer address = buffer address ∨
      (address, writeAll writes buffer address) ∈ writes := by
  induction writes generalizing buffer with
  | nil => exact Or.inl rfl
  | cons write rest ih =>
    rcases ih (Function.update buffer write.1 write.2) with
      same | member
    · by_cases here : address = write.1
      · right
        subst here
        refine List.mem_cons.mpr (Or.inl ?_)
        exact Prod.ext rfl (same.trans (Function.update_self ..))
      · exact Or.inl (same.trans (Function.update_of_ne here ..))
    · exact Or.inr (List.mem_cons_of_mem _ member)

/-- Below the limit, only these places hold something. -/
def OnlyAt (limit : Nat) (place : Nat → Prop) (buffer : Buffer T) : Prop :=
  ∀ offset < limit, buffer offset ≠ 0 → place offset

/-- Where nothing is taken from one of the places, zeros are moved. -/
theorem OnlyAt.moveRows {index : Nat → Nat → Nat} {mHeadDim src dst size limit : Nat}
    {place : Nat → Prop} {buffer : Buffer T}
    (elsewhere :
      ∀ i dim, i < size → dim < mHeadDim →
        index (src + i) dim < limit ∧ ¬place (index (src + i) dim))
    (only : OnlyAt limit place buffer) :
    OnlyAt limit place (CPUKVCacheManager.moveRows index mHeadDim src dst size buffer) := by
  unfold CPUKVCacheManager.moveRows
  refine List.foldlRecOn _ _ only ?_
  intro outer onlyOuter i member
  refine List.foldlRecOn _ _ onlyOuter ?_
  intro inner onlyInner j member'
  have source := elsewhere i j (List.mem_range.mp member) (List.mem_range.mp member')
  have isZero : inner (index (src + i) j) = 0 := by
    by_contra something
    exact source.2 (onlyInner _ source.1 something)
  intro offset inside something
  by_cases here : offset = index (dst + i) j
  · rw [here, Function.update_self] at something
    exact absurd isZero something
  · rw [Function.update_of_ne here] at something
    exact onlyInner offset inside something

/-- Rows of which only these places hold something are written. -/
theorem OnlyAt.processValue {upper mPastLength seqLen limit : Nat} (positive : 0 < upper)
    {place : Nat → Prop} {buffer : Buffer T} {rows : Rows T} {kvHead : Nat}
    (inRows :
      ∀ i dim, i < seqLen → dim < config.mHeadDim → valueRowAt config rows seqLen kvHead i dim ≠ 0 →
        place (config.valueIndex upper (mPastLength + i) dim)) (only : OnlyAt limit place buffer) :
    OnlyAt limit place (writeAll
        (CPUKVCacheManager.processValue config mPastLength upper rows seqLen kvHead) buffer) := by
  intro offset inside something
  rcases writeAll_cases (CPUKVCacheManager.processValue config mPastLength upper rows seqLen kvHead)
        buffer offset with
    same | member
  · rw [same] at something
    exact only offset inside something
  · rcases (mem_processValue positive (le_refl _) rows kvHead member).2 with
      isZero | ⟨i, dim, less, insideDim, rfl, isRow⟩
    · exact absurd isZero something
    · rw [isRow] at something
      exact inRows i dim less insideDim something

end CPUKVCacheManager

namespace DiskCache

open CPUKVCacheManager

variable {T : Type*} [Zero T] {config : KVConfig} {cache : DiskCache T}

/-- Of the values in the file only this one, if it is stored yet. -/
def Marked (config : KVConfig) (count h row dim : Nat) (cache : DiskCache T) : Prop :=
  ∀ h' < config.mKvNumHead, OnlyAt cache.mCurrentValueSizePerHead (fun offset =>
        row < count ∧ h' = h ∧ offset = config.valueIndex cache.mFlashAttentionUpperKv row dim)
      (behind (h' * cache.mCurrentValueSizePerHead) cache.mMapValueAddr)

theorem Marked.place {count h row dim : Nat} (marked : Marked config count h row dim cache)
    {address : Nat} (inFile : address < config.mKvNumHead * cache.mCurrentValueSizePerHead)
    (something : cache.mMapValueAddr address ≠ 0) :
    address = h * cache.mCurrentValueSizePerHead +
        config.valueIndex cache.mFlashAttentionUpperKv row dim := by
  have positive : 0 < cache.mCurrentValueSizePerHead := by
    by_contra isZero
    rw [Nat.eq_zero_of_not_pos isZero, mul_zero] at inFile
    exact not_lt_zero _ inFile
  have parts := div_add_mod' address cache.mCurrentValueSizePerHead
  rcases marked (address / cache.mCurrentValueSizePerHead) ((div_lt_iff_lt_mul positive).mpr inFile)
        (address % cache.mCurrentValueSizePerHead) (mod_lt _ positive)
        (by rwa [behind, parts]) with
    ⟨-, isHead, isOffset⟩
  rw [← parts, isHead, isOffset]

theorem moveKV_marked (sized : Sized config cache) {count h row dim : Nat}
    (inside : dim < config.mHeadDim)
    (marked : Marked config count h row dim cache) {src dst size : Nat}
    (behindCount : count ≤ src) (srcRoom : src + size ≤ cache.mMaxLength)
    (dstRoom : dst + size ≤ cache.mMaxLength) :
    Marked config count h row dim (moveKV config cache src dst size) := by
  intro h' hLess offset inHead something
  have moved := moveKV_value sized src dstRoom hLess inHead
  have elsewhere :
      ∀ i dim', i < size → dim' < config.mHeadDim →
        config.valueIndex cache.mFlashAttentionUpperKv (src + i) dim' <
            cache.mCurrentValueSizePerHead ∧
          ¬(row < count ∧ h' = h ∧ config.valueIndex cache.mFlashAttentionUpperKv (src + i) dim' =
              config.valueIndex cache.mFlashAttentionUpperKv row dim) := by
    intro i dim' less inside'
    have inCache : src + i < cache.mMaxLength := by
      omega
    refine ⟨sized.valueIndex_lt inCache inside', ?_⟩
    rintro ⟨stored, -, sameIndex⟩
    have upper_pos := sized.upper_pos (zero_lt_of_lt inCache)
    have sameRow := (KVConfig.valueIndex_inj upper_pos inside' inside sameIndex).1
    omega
  have kept := @OnlyAt.moveRows T _ _ _ src dst size _ _ _ elsewhere (marked h' hLess)
  exact kept offset inHead fun isZero => something (moved.trans isZero)

theorem resize_marked (sized : Sized config cache) {count h row dim : Nat}
    (fits : count ≤ cache.mMaxLength)
    (marked : Marked config count h row dim cache) {mMaxLength : Nat}
    (larger : cache.mMaxLength ≤ mMaxLength) :
    Marked config count h row dim (resize config cache mMaxLength) := by
  intro h' hLess offset inHead something
  let resized := cache.setSizes config mMaxLength
  have inFile :
      h' * resized.mCurrentValueSizePerHead + offset <
        config.mKvNumHead * resized.mCurrentValueSizePerHead :=
    digits_lt hLess inHead
  by_cases flash : config.mUseFlashAttention = true
  · have sameUpper : resized.mFlashAttentionUpperKv = cache.mFlashAttentionUpperKv := by
      rw [sized.upper, KVConfig.upperKv_flash flash]
      exact KVConfig.upperKv_flash flash mMaxLength
    have copied := @expandKVCacheInDisk_flash T _ config resized cache.mMaxLength
        (config.mKvNumHead * cache.mCurrentKeySizePerHead)
        cache.mCurrentValueSizePerHead
        (config.mKvNumHead * resized.mCurrentKeySizePerHead)
        (config.mKvNumHead * resized.mCurrentValueSizePerHead)
        cache.mMapKeyAddr cache.mMapValueAddr flash h' offset hLess inHead
        inFile
    have nonzero := fun isZero => something (copied.trans isZero)
    by_cases inOld : offset < cache.mCurrentValueSizePerHead
    · rw [if_pos inOld] at nonzero
      have place := marked h' hLess offset inOld nonzero
      exact ⟨place.1, place.2.1, place.2.2.trans (by rw [← sameUpper]; rfl)⟩
    · rw [if_neg inOld] at nonzero
      exact absurd rfl nonzero
  · have oldUpper : cache.mFlashAttentionUpperKv = cache.mMaxLength := by
      rw [sized.upper, KVConfig.upperKv_noFlash flash]
    have newUpper : config.upperKv mMaxLength = mMaxLength :=
      KVConfig.upperKv_noFlash flash mMaxLength
    have newSize :
        resized.mCurrentValueSizePerHead = upDiv config.mHeadDim config.hP *
            (roundUp mMaxLength config.lP * config.hP) := by
      show config.valueSizePerHead mMaxLength (config.upperKv mMaxLength) = _
      rw [newUpper, valueSize_oneChunk]
    have oldSize :
        cache.mCurrentValueSizePerHead = upDiv config.mHeadDim config.hP *
            (roundUp cache.mMaxLength config.lP * config.hP) := by
      rw [sized.valueSize, oldUpper, valueSize_oneChunk]
    have inGroups :
        offset < upDiv config.mHeadDim config.hP * (roundUp mMaxLength config.lP * config.hP) := by
      rw [← newSize]
      exact inHead
    rcases exists_digits inGroups with ⟨d, inner, dLess, innerLess, rfl⟩
    have address :
        h' * resized.mCurrentValueSizePerHead +
            (d * (roundUp mMaxLength config.lP * config.hP) + inner) =
          (h' * upDiv config.mHeadDim config.hP + d) *
              (roundUp mMaxLength config.lP * config.hP) + inner := by
      rw [newSize]
      ring
    have copied := @expandKVCacheInDisk_noFlash T _ config resized cache.mMaxLength
        (config.mKvNumHead * cache.mCurrentKeySizePerHead)
        (config.mKvNumHead * cache.mCurrentValueSizePerHead)
        (config.mKvNumHead * resized.mCurrentKeySizePerHead)
        (config.mKvNumHead * resized.mCurrentValueSizePerHead)
        cache.mMapKeyAddr cache.mMapValueAddr flash larger _ inner
        (digits_lt hLess dLess) innerLess (lt_of_eq_of_lt address.symm inFile)
    have nonzero := fun isZero =>
      something ((congrArg _ address).trans (copied.trans isZero))
    by_cases inOld : inner < roundUp cache.mMaxLength config.lP * config.hP
    · rw [if_pos inOld] at nonzero
      have oldAddress :
          (h' * upDiv config.mHeadDim config.hP + d) *
                (roundUp cache.mMaxLength config.lP * config.hP) + inner =
            h' * cache.mCurrentValueSizePerHead +
              (d * (roundUp cache.mMaxLength config.lP * config.hP) + inner) := by
        rw [oldSize]
        ring
      rw [oldAddress] at nonzero
      have inOldHead :
          d * (roundUp cache.mMaxLength config.lP * config.hP) + inner <
            cache.mCurrentValueSizePerHead := by
        rw [oldSize]
        exact digits_lt dLess inOld
      rcases marked h' hLess _ inOldHead nonzero with
        ⟨stored, sameHead, place⟩
      have inCache : row < cache.mMaxLength := lt_of_lt_of_le stored fits
      rw [oldUpper, valueIndex_oneChunk inCache] at place
      rcases digits_inj inOld (inner_lt inCache dim) place with
        ⟨sameGroup, sameInner⟩
      refine ⟨stored, sameHead, ?_⟩
      show _ = config.valueIndex (config.upperKv mMaxLength) row dim
      rw [newUpper, valueIndex_oneChunk (lt_of_lt_of_le inCache larger), sameGroup, sameInner]
    · rw [if_neg inOld] at nonzero
      exact absurd rfl nonzero

/-- Rows of which only this value is not zero, if it is among them. -/
def markedRows (config : KVConfig) (one : T) (past h row dim : Nat) : Rows T :=
  { key := fun _ => 0
    value := fun address =>
      if past ≤ row ∧
          address = (row - past) * (config.mKvNumHead * config.mHeadDim) +
              (h * config.mHeadDim + dim) then
        one
      else
        0
    valueC4 := false }

theorem markedRows_at {one : T} {past h row dim i h' dim' seqLen : Nat}
    (hLess : h < config.mKvNumHead) (inside : dim < config.mHeadDim)
    (hLess' : h' < config.mKvNumHead) (inside' : dim' < config.mHeadDim) :
    valueRowAt config (markedRows config one past h row dim) seqLen h' i dim' =
      if past + i = row ∧ h' = h ∧ dim' = dim then one else 0 := by
  show (if past ≤ row ∧ i * (config.mKvNumHead * config.mHeadDim) +
      (h' * config.mHeadDim + dim') = _ then one else 0) = _
  refine if_congr ?_ rfl rfl
  constructor
  · rintro ⟨later, same⟩
    rcases digits_inj (digits_lt hLess' inside') (digits_lt hLess inside) same with
      ⟨sameRow, low⟩
    rcases digits_inj inside' inside low with ⟨sameHead, sameDim⟩
    exact ⟨by omega, sameHead, sameDim⟩
  · rintro ⟨rfl, rfl, rfl⟩
    exact ⟨Nat.le_add_right .., by rw [Nat.add_sub_cancel_left]⟩

theorem onUpdateKV_marked (sized : Sized config cache) {one : T} {count h row dim : Nat}
    (hLess : h < config.mKvNumHead) (inside : dim < config.mHeadDim)
    (marked : Marked config count h row dim cache) {add count' : Nat}
    (room : cache.mPastLength + add ≤ cache.mMaxLength) (more : count ≤ count')
    (stored : one ≠ 0 → cache.mPastLength ≤ row → row < cache.mPastLength + add → row < count') :
    Marked config count' h row dim (cache.onUpdateKV config
        (markedRows config one cache.mPastLength h row dim) add) := by
  intro h' hLess' offset inHead something
  rcases Nat.eq_zero_or_pos cache.mMaxLength with empty | positive
  · have noHead : cache.mCurrentValueSizePerHead = 0 := by
      rw [sized.valueSize, empty, KVConfig.valueSizePerHead, upDiv_zero, zero_mul]
    have inNothing : offset < cache.mCurrentValueSizePerHead := inHead
    rw [noHead] at inNothing
    cases inNothing
  · have upper_pos := sized.upper_pos positive
    have written := onUpdateKV_value sized upper_pos room
        (markedRows config one cache.mPastLength h row dim) hLess' inHead
    have before : OnlyAt cache.mCurrentValueSizePerHead (fun offset =>
            row < count' ∧ h' = h ∧ offset = config.valueIndex cache.mFlashAttentionUpperKv row dim)
          (behind (h' * cache.mCurrentValueSizePerHead) cache.mMapValueAddr) :=
      fun offset inside something =>
        have place := marked h' hLess' offset inside something
        ⟨lt_of_lt_of_le place.1 more, place.2⟩
    have inRows :
        ∀ i dim', i < add → dim' < config.mHeadDim →
          valueRowAt config (markedRows config one cache.mPastLength h row dim) add h' i dim' ≠ 0 →
          row < count' ∧ h' = h ∧ config.valueIndex cache.mFlashAttentionUpperKv
                (cache.mPastLength + i) dim' =
              config.valueIndex cache.mFlashAttentionUpperKv row dim := by
      intro i dim' less inside' nonzero
      rw [markedRows_at hLess inside hLess' inside'] at nonzero
      split at nonzero
      · next here =>
        rcases here with ⟨sameRow, sameHead, sameDim⟩
        refine ⟨stored nonzero (by omega) (by omega), sameHead, ?_⟩
        rw [sameRow, sameDim]
      · exact absurd rfl nonzero
    have after := OnlyAt.processValue upper_pos inRows before
    exact after offset inHead fun isZero => something (written.trans isZero)

/-- The value of the rows that is not zero is found in the cache. -/
theorem onUpdateKV_markedAt (sized : Sized config cache) {one : T} {h row dim : Nat}
    (hLess : h < config.mKvNumHead) (inside : dim < config.mHeadDim) {add : Nat}
    (room : cache.mPastLength + add ≤ cache.mMaxLength)
    (later : cache.mPastLength ≤ row) (less : row < cache.mPastLength + add) :
    (cache.onUpdateKV config (markedRows config one cache.mPastLength h row dim)
          add).valueAt config h row dim = one := by
  have inCache : row < cache.mMaxLength := lt_of_lt_of_le less room
  have upper_pos := sized.upper_pos (zero_lt_of_lt inCache)
  have isRow : cache.mPastLength + (row - cache.mPastLength) = row := by
    omega
  have added := (@processValue_adds T _ config _ upper_pos cache.mPastLength
        (markedRows config one cache.mPastLength h row dim) add h
        (behind (h * cache.mCurrentValueSizePerHead) cache.mMapValueAddr)).new
      (row - cache.mPastLength) dim (by omega) inside
  rw [isRow, markedRows_at hLess inside hLess inside, if_pos ⟨isRow, rfl, rfl⟩] at added
  refine Eq.trans ?_ added
  exact onUpdateKV_value sized upper_pos room _ hLess (sized.valueIndex_lt inCache inside)

/-! ## Runs of the same lengths -/

omit [Zero T] in
theorem foldl_moveKV_capacity
    (start : Nat) (reserve : List (Nat × Nat)) (state : DiskCache T × Nat) :
    (reserve.foldl (fun (state : DiskCache T × Nat) range =>
            (moveKV config state.1 (start + range.1) state.2 range.2, state.2 + range.2))
          state).1.mMaxLength = state.1.mMaxLength := by
  induction reserve generalizing state with
  | nil => rfl
  | cons range rest ih => exact ih _

/-- The capacity behind a forward depends on the lengths before it only. -/
theorem step_capacity (cache : DiskCache T) (round : DiskRound T) :
    (cache.step config round).mMaxLength =
      if kvSeqLen (metaOf cache round) > cache.mMaxLength then
        (kvSeqLen (metaOf cache round)).toNat + config.mExpandChunk
      else
        cache.mMaxLength := by
  have expanded :
      (expand config cache (metaOf cache round)).mMaxLength =
        if kvSeqLen (metaOf cache round) > cache.mMaxLength then
          (kvSeqLen (metaOf cache round)).toNat + config.mExpandChunk
        else
          cache.mMaxLength := by
    unfold expand
    simp only
    split <;> rfl
  rw [← expanded]
  show (onRealloc config cache (metaOf cache round)).mMaxLength = _
  unfold onRealloc
  simp only
  split
  · rfl
  · exact foldl_moveKV_capacity _ _ _

/-- The round of the same lengths, with rows of which one value is not zero. -/
def markRound (config : KVConfig) (one : T) (past : Nat) (round : DiskRound T)
    (h row dim : Nat) : DiskRound T :=
  { round with
    rows := markedRows config one (reallocLength config past round) h row dim }

theorem step_marked (sized : Sized config cache) (fits : cache.mPastLength ≤ cache.mMaxLength)
    {count count' h row dim : Nat} (hLess : h < config.mKvNumHead) (inside : dim < config.mHeadDim)
    (marked : Marked config count h row dim cache) {round : DiskRound T}
    (keeps : Keeps count cache round) {one : T} (more : count ≤ count')
    (stored :
      one ≠ 0 → reallocLength config cache.mPastLength round ≤ row →
        row < reallocLength config cache.mPastLength round + round.add →
        row < count') :
    let next :=
      cache.step config (markRound config one cache.mPastLength round h row dim)
    Marked config count' h row dim next ∧ (reallocLength config cache.mPastLength round ≤ row →
        row < reallocLength config cache.mPastLength round + round.add →
        next.valueAt config h row dim = one) := by
  have removed := keeps.kept
  have keeps' : Keeps count cache (markRound config one cache.mPastLength round h row dim) :=
    ⟨keeps.kept, keeps.ranges⟩
  rcases @onRealloc_induct T _ config cache
        (fun other => Sized config other ∧ Marked config count h row dim other)
        count _ keeps' fits ⟨sized, marked⟩
        (fun mMaxLength larger =>
          ⟨resize_sized cache mMaxLength, resize_marked sized (by omega) marked larger⟩)
        (fun other src dst size holds behindSrc _ srcRoom dstRoom =>
          ⟨⟨holds.1.upper, holds.1.keySize, holds.1.valueSize⟩,
            moveKV_marked holds.1 inside holds.2 behindSrc srcRoom dstRoom⟩)
        (fun other _ holds =>
          ⟨⟨holds.1.upper, holds.1.keySize, holds.1.valueSize⟩, holds.2⟩) with
    ⟨⟨sized', marked'⟩, length, room⟩
  have isLength : (onRealloc config cache (metaOf cache
              (markRound config one cache.mPastLength round h row dim))).mPastLength =
        reallocLength config cache.mPastLength round :=
    length
  rw [← isLength] at stored
  have update := @onUpdateKV_marked T _ config _ sized' one count h row dim
    hLess inside marked' _ count' room more stored
  have updateAt := @onUpdateKV_markedAt T _ config _ sized' one h row dim hLess inside _ room
  rw [isLength] at update updateAt
  exact ⟨update, updateAt⟩

/-- The lengths behind a forward depend on those before it only. -/
theorem step_lengths {other : DiskCache T} (fits : cache.mPastLength ≤ cache.mMaxLength)
    (sameLength : other.mPastLength = cache.mPastLength)
    (sameCapacity : other.mMaxLength = cache.mMaxLength) {count : Nat}
    {round : DiskRound T} (keeps : Keeps count cache round) (one : T) (h row dim : Nat) :
    let next :=
      other.step config (markRound config one other.mPastLength round h row dim)
    Keeps count other (markRound config one other.mPastLength round h row dim) ∧
      next.mPastLength = (cache.step config round).mPastLength ∧
      next.mMaxLength = (cache.step config round).mMaxLength := by
  have keeps' : Keeps count other (markRound config one other.mPastLength round h row dim) := by
    refine ⟨?_, keeps.ranges⟩
    rw [sameLength]
    exact keeps.kept
  have fits' : other.mPastLength ≤ other.mMaxLength := by
    rwa [sameLength, sameCapacity]
  refine ⟨keeps', ?_, ?_⟩
  · rw [step_length fits' keeps', step_length fits keeps, sameLength]
    rfl
  · rw [step_capacity, step_capacity, metaOf, metaOf, sameLength, sameCapacity]
    rfl

/--
To each run that writes a prefix there is one of the same lengths with a single
value of the prefix in its file.
-/
theorem Writes.exists_marked {count : Nat} (writes : Writes config count cache) (one : T)
    {h row dim : Nat} (hLess : h < config.mKvNumHead) (inside : dim < config.mHeadDim) :
    ∃ other : DiskCache T, Writes config count other ∧ other.mPastLength = cache.mPastLength ∧
        other.mMaxLength = cache.mMaxLength ∧
        Marked config count h row dim other ∧
        (row < count → other.valueAt config h row dim = one) := by
  induction writes with
  | first seq_len add rows less =>
    have sized : Sized config (onAlloc config seq_len : DiskCache T) := ⟨rfl, rfl, rfl⟩
    have empty : Marked config 0 h row dim (onAlloc config seq_len : DiskCache T) :=
      fun _ _ _ _ something => absurd rfl something
    have room :
        (onAlloc config seq_len : DiskCache T).mPastLength + add ≤
          (onAlloc config seq_len : DiskCache T).mMaxLength := by
      show 0 + add ≤ seq_len + config.mExpandChunk
      omega
    refine ⟨_, Writes.first seq_len add (markedRows config one 0 h row dim) less,
        rfl, rfl, ?_, ?_⟩
    · exact onUpdateKV_marked sized hLess inside empty room (zero_le _) fun _ _ below => by
            rwa [show (onAlloc config seq_len : DiskCache T).mPastLength + add
              = add from zero_add add] at below
    · intro stored
      refine onUpdateKV_markedAt sized hLess inside room (zero_le _) ?_
      exact Nat.lt_of_lt_of_le stored (Nat.le_add_left ..)
  | @piece count cache add rows before length ih =>
    rcases ih with
      ⟨other, writes, sameLength, sameCapacity, marked, value⟩
    have written := writes.written
    have length' : other.mPastLength = count := sameLength.trans length
    have keeps := piece_keeps length add rows
    have realloc : reallocLength config other.mPastLength ⟨0, [], add, rows⟩ = count := by
      rw [reallocLength, if_pos (Or.inl rfl), length', Nat.sub_zero]
    rcases step_lengths before.written.fits sameLength sameCapacity keeps one h row dim with
      ⟨keeps', nextLength, nextCapacity⟩
    rcases @step_marked T _ config other written.sized written.fits count
          (count + add) h row dim hLess inside marked _
          (piece_keeps length' add rows) one (Nat.le_add_right ..)
          fun _ _ below => by
            rwa [realloc] at below with
      ⟨nextMarked, nextValue⟩
    refine ⟨_, Writes.piece add _ writes length', nextLength, nextCapacity, nextMarked, ?_⟩
    intro stored
    by_cases earlier : row < count
    · have same := (step_sameRows written.sized written.fits keeps').2.2
      exact (same h hLess row earlier dim inside).2.trans (value earlier)
    · rw [realloc] at nextValue
      exact nextValue (Nat.le_of_not_lt earlier) stored
  | @later count cache round before keeps ih =>
    rcases ih with
      ⟨other, writes, sameLength, sameCapacity, marked, value⟩
    have written := writes.written
    rcases step_lengths before.written.fits sameLength sameCapacity keeps 0 h row dim with
      ⟨keeps', nextLength, nextCapacity⟩
    rcases @step_marked T _ config other written.sized written.fits count count h
          row dim hLess inside marked _ ⟨keeps'.kept, keeps'.ranges⟩ 0
          (le_refl _) fun nonzero => absurd rfl nonzero with
      ⟨nextMarked, -⟩
    refine ⟨_, Writes.later _ writes keeps', nextLength, nextCapacity, nextMarked, ?_⟩
    intro stored
    have same := (step_sameRows written.sized written.fits keeps').2.2
    exact (same h hLess row stored dim inside).2.trans (value stored)

end DiskCache

end Mnn.Cpu
