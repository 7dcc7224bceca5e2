import Mnn.Cpu.KVRows
import Mnn.Foundation.Segments

/-!
# The KV cache in files

With a directory for them, keys and values lie in two files that are mapped to
memory, with the heads one behind the other.  A run that is to write a prefix
maps the files of the prefix themselves; what it has stored when it ends is what
is in them.  A run that reads the prefix copies the files to its own, for the
lengths and the chunks that it works with.

Addresses and sizes count elements of `mBytes` bytes.  The files of one layer
are modelled, for unquantised keys and values.  A new file is all zeros.
-/

namespace Mnn.Cpu

open Mnn.Core
open Mnn.Foundation.Segments

/-- The cache with `mKVCacheInDisk`. -/
structure DiskCache (T : Type*) where
  mPastLength : Nat
  mMaxLength : Nat
  mFlashAttentionUpperKv : Nat
  mCurrentKeySizePerHead : Nat
  mCurrentValueSizePerHead : Nat
  mMapKeyAddr : Buffer T
  mMapValueAddr : Buffer T
  /-- The size of the file of the keys. -/
  keyFileSize : Nat
  valueFileSize : Nat

/-- The two files of a layer, `.k` and `.v`. -/
structure PrefixFiles (T : Type*) where
  key : Buffer T
  value : Buffer T
  keySize : Nat
  valueSize : Nat

/-- The part of `validatePrefixCacheFiles` about the data of a layer. -/
def validatePrefixCacheFiles {T : Type*} (files : PrefixFiles T) : Bool :=
  files.keySize ≠ 0 && files.valueSize ≠ 0

/-- What is edited in the meta data before a forward, and its rows. -/
structure DiskRound (T : Type*) where
  remove : Nat
  reserve : List (Nat × Nat)
  add : Nat
  rows : Rows T

namespace DiskCache

variable {T : Type*} (config : KVConfig)

/-- What is left in the files. -/
def files (cache : DiskCache T) : PrefixFiles T :=
  { key := cache.mMapKeyAddr
    value := cache.mMapValueAddr
    keySize := cache.keyFileSize
    valueSize := cache.valueFileSize }

variable [Zero T]

/-! ## Allocation -/

/-- The lengths and the sizes of the heads, as `onAlloc` and `onRealloc` set them. -/
def setSizes (cache : DiskCache T) (mMaxLength : Nat) : DiskCache T :=
  let upper := config.upperKv mMaxLength
  { cache with
    mMaxLength := mMaxLength
    mFlashAttentionUpperKv := upper
    mCurrentKeySizePerHead := config.keySizePerHead mMaxLength
    mCurrentValueSizePerHead := config.valueSizePerHead mMaxLength upper }

/-- `createKVCacheFile` and `resetKVCacheFileSize`. -/
def createKVCacheFile (keySize valueSize : Nat) : DiskCache T :=
  { mPastLength := 0
    mMaxLength := 0
    mFlashAttentionUpperKv := 0
    mCurrentKeySizePerHead := 0
    mCurrentValueSizePerHead := 0
    mMapKeyAddr := fun _ => 0
    mMapValueAddr := fun _ => 0
    keyFileSize := keySize
    valueFileSize := valueSize }

/-- `onClear` and `onAlloc`, where the prefix is to be written. -/
def onAlloc (seq_len : Nat) : DiskCache T :=
  let mMaxLength := seq_len + config.mExpandChunk
  let keySize := config.mKvNumHead * config.keySizePerHead mMaxLength
  let valueSize :=
    config.mKvNumHead * config.valueSizePerHead mMaxLength (config.upperKv mMaxLength)
  (createKVCacheFile keySize valueSize).setSizes config mMaxLength

/-- The loops without flash attention: a group of `hP` dimensions at a time. -/
def copyGroups (mMaxLength oldMaxLength : Nat) (prevValue buffer : Buffer T) : Buffer T :=
  let currentStride1 := roundUp mMaxLength config.lP * config.hP
  let currentStride0 :=
    roundUp mMaxLength config.lP * config.hP * upDiv config.mHeadDim config.hP
  let prevStride1 := roundUp oldMaxLength config.lP * config.hP
  let prevStride0 :=
    roundUp oldMaxLength config.lP * config.hP * upDiv config.mHeadDim config.hP
  (List.range config.mKvNumHead).foldl (fun buffer h =>
      (List.range (upDiv config.mHeadDim config.hP)).foldl (fun buffer d =>
          let dstPtr := h * currentStride0 + d * currentStride1
          let srcPtr := h * prevStride0 + d * prevStride1
          let cleared :=
            if config.lP > 1 then fill dstPtr currentStride1 0 buffer else buffer
          copy dstPtr prevValue srcPtr prevStride1 cleared)
        buffer)
    buffer

/--
`expandKVCacheInDisk`.  `prevKey` and `prevValue` are what the old files hold.
-/
def expandKVCacheInDisk (cache : DiskCache T)
    (oldMaxLength oldKeySize oldValueSize keySize valueSize : Nat)
    (prevKey prevValue : Buffer T) : DiskCache T :=
  let prevKeySizePerHead := oldKeySize / config.mKvNumHead
  let prevValueSizePerHead := oldValueSize / config.mKvNumHead
  let clearKey := fill 0 keySize 0 cache.mMapKeyAddr
  let clearValue := fill 0 valueSize 0 cache.mMapValueAddr
  { cache with
    keyFileSize := keySize
    valueFileSize := valueSize
    mMapKeyAddr := copies cache.mCurrentKeySizePerHead prevKey prevKeySizePerHead
        prevKeySizePerHead config.mKvNumHead clearKey
    mMapValueAddr :=
      if config.mUseFlashAttention then
        copies cache.mCurrentValueSizePerHead prevValue prevValueSizePerHead
          prevValueSizePerHead config.mKvNumHead clearValue
      else
        copyGroups config cache.mMaxLength oldMaxLength prevValue clearValue }

/-- The length that `onAlloc` finds in the files of a prefix. -/
def lengthInFiles (files : PrefixFiles T) : Nat :=
  let oldKeyMaxLength :=
    files.keySize / (config.mKvNumHead * roundUp config.mHeadDim config.lP)
  let oldValueMaxLength :=
    files.valueSize / (config.mKvNumHead * roundUp config.mHeadDim config.hP)
  min oldKeyMaxLength oldValueMaxLength

/-- `onClear` and `onAlloc`, where a prefix is to be read. -/
def onAllocPrefix (files : PrefixFiles T) (add seqlen_in_disk : Nat) : DiskCache T :=
  let oldMaxLength := lengthInFiles config files
  let kv_seq_len := add + seqlen_in_disk
  let mMaxLength :=
    if kv_seq_len > oldMaxLength then
      kv_seq_len + config.mExpandChunk
    else
      oldMaxLength
  let upper := config.upperKv mMaxLength
  let keySize :=
    config.mKvNumHead * roundUp mMaxLength config.hP * roundUp config.mHeadDim config.lP
  let valueSize :=
    config.mKvNumHead * upDiv mMaxLength upper *
      (roundUp config.mHeadDim config.hP * roundUp upper config.lP)
  let keySize := max keySize files.keySize
  let valueSize := max valueSize files.valueSize
  let created := (createKVCacheFile keySize valueSize).setSizes config mMaxLength
  { expandKVCacheInDisk config created oldMaxLength files.keySize
      files.valueSize keySize valueSize files.key files.value with
    mPastLength := seqlen_in_disk }

/-- The part of `onRealloc` that makes room. -/
def expand (cache : DiskCache T) (kvMeta : KVMeta) : DiskCache T :=
  let kv_seq_len := CPUKVCacheManager.kvSeqLen kvMeta
  if kv_seq_len > cache.mMaxLength then
    let resized :=
      cache.setSizes config (kv_seq_len.toNat + config.mExpandChunk)
    expandKVCacheInDisk config resized cache.mMaxLength
      (config.mKvNumHead * cache.mCurrentKeySizePerHead)
      (config.mKvNumHead * cache.mCurrentValueSizePerHead)
      (config.mKvNumHead * resized.mCurrentKeySizePerHead)
      (config.mKvNumHead * resized.mCurrentValueSizePerHead)
      cache.mMapKeyAddr cache.mMapValueAddr
  else
    cache

omit [Zero T] in
/-- `moveKV`; the heads lie behind `addrOfKey` and `addrOfValue`. -/
def moveKV (cache : DiskCache T) (src dst size : Nat) : DiskCache T :=
  { cache with
    mMapKeyAddr := forSegments config.mKvNumHead cache.mCurrentKeySizePerHead (fun _ =>
          CPUKVCacheManager.moveRows config.keyIndex config.mHeadDim src dst size)
        cache.mMapKeyAddr
    mMapValueAddr := forSegments config.mKvNumHead cache.mCurrentValueSizePerHead (fun _ =>
          CPUKVCacheManager.moveRows
            (config.valueIndex cache.mFlashAttentionUpperKv) config.mHeadDim
            src dst size)
        cache.mMapValueAddr }

def onRealloc (cache : DiskCache T) (kvMeta : KVMeta) : DiskCache T :=
  let cache := expand config cache kvMeta
  let start := cache.mPastLength - kvMeta.remove
  if kvMeta.reserve = [] ∨ config.mKeyQuantMode ≠ .none ∨
      config.mValueQuantMode ≠ .none then
    { cache with mPastLength := start }
  else
    let moved :=
      kvMeta.reserve.foldl (fun (state : DiskCache T × Nat) range =>
          (moveKV config state.1 (start + range.1) state.2 range.2, state.2 + range.2))
        (cache, start)
    { moved.1 with mPastLength := moved.2 }

/-- `onUpdateKV`, with the loop over the heads. -/
def onUpdateKV (cache : DiskCache T) (rows : Rows T) (add : Nat) : DiskCache T :=
  { cache with
    mPastLength := cache.mPastLength + add
    mMapKeyAddr := forSegments config.mKvNumHead cache.mCurrentKeySizePerHead (fun h =>
          CPUKVCacheManager.writeAll
            (CPUKVCacheManager.processKey config cache.mPastLength rows.key add h))
        cache.mMapKeyAddr
    mMapValueAddr := forSegments config.mKvNumHead cache.mCurrentValueSizePerHead (fun h =>
          CPUKVCacheManager.writeAll (CPUKVCacheManager.processValue config cache.mPastLength
              cache.mFlashAttentionUpperKv rows add h))
        cache.mMapValueAddr }

/-- A forward: `onRealloc` and `onUpdateKV`, with the lengths in step. -/
def step (cache : DiskCache T) (round : DiskRound T) : DiskCache T :=
  let kvMeta : KVMeta :=
    { previous := cache.mPastLength
      remove := round.remove
      reserve := round.reserve
      add := round.add }
  (onRealloc config cache kvMeta).onUpdateKV config round.rows round.add

omit [Zero T] in
def keyAt (cache : DiskCache T) (h seq dim : Nat) : T := cache.mMapKeyAddr
    (h * cache.mCurrentKeySizePerHead + config.keyIndex seq dim)

omit [Zero T] in
def valueAt (cache : DiskCache T) (h seq dim : Nat) : T := cache.mMapValueAddr
    (h * cache.mCurrentValueSizePerHead + config.valueIndex cache.mFlashAttentionUpperKv seq dim)

omit [Zero T] in
/-- The rows of a prefix are not among those that are dropped or moved. -/
structure Keeps (count : Nat) (cache : DiskCache T) (round : DiskRound T) :
    Prop where
  kept : count + round.remove ≤ cache.mPastLength
  ranges : ∀ range ∈ round.reserve, 0 < range.2 ∧ range.1 + range.2 ≤ round.remove

/--
The runs that write a prefix, of so many rows: in one or more pieces, after
which the run goes on with the same files.
-/
inductive Writes : Nat → DiskCache T → Prop
  | first (seq_len add : Nat) (rows : Rows T) :
      add ≤ seq_len → Writes add ((onAlloc config seq_len).onUpdateKV config rows add)
  | piece {count : Nat} {cache : DiskCache T} (add : Nat) (rows : Rows T) :
      Writes count cache → cache.mPastLength = count →
        Writes (count + add) (cache.step config ⟨0, [], add, rows⟩)
  | later {count : Nat} {cache : DiskCache T} (round : DiskRound T) :
      Writes count cache → Keeps count cache round → Writes count (cache.step config round)

/-- The runs that read a prefix, of so many rows, and go on behind it. -/
inductive Reads (files : PrefixFiles T) (count : Nat) : DiskCache T → Prop
  | alloc (add : Nat) : Reads files count (onAllocPrefix config files add count)
  | first (add : Nat) (rows : Rows T) : Reads files count
        ((onAllocPrefix config files add count).onUpdateKV config rows add)
  | later {cache : DiskCache T} (round : DiskRound T) :
      Reads files count cache → Keeps count cache round →
        Reads files count (cache.step config round)

end DiskCache

end Mnn.Cpu
