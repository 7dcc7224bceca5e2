import Mnn.Core.KVMeta
import Mnn.Core.Macro

/-!
# The KV cache of the CPU backend

Keys and values of all heads lie in two tensors, in blocks that suit the matrix
multiplication.  A row is stored for every position.  `onRealloc` makes room
for more rows and drops or moves rows as the meta data say, `onUpdateKV` writes
the new rows.

Addresses count elements.  The tensors are in memory, and what they hold is
modelled for unquantised keys and values; in the other modes only the lengths
are.  A buffer that was just acquired may hold anything.
-/

namespace Mnn.Cpu

open Mnn.Core

inductive KVQuantMode where
  | none
  | int8
  | tq3
  | tq4
  deriving DecidableEq, Repr

/-- What does not change while the cache is used. -/
structure KVConfig where
  lP : Nat
  hP : Nat
  /-- `functions()->pack`. -/
  pack : Nat
  mBytes : Nat
  threadNumber : Nat
  mKvNumHead : Nat
  mHeadDim : Nat
  mExpandChunk : Nat
  mUseFlashAttention : Bool
  mKeyQuantMode : KVQuantMode
  mValueQuantMode : KVQuantMode
  lP_pos : 0 < lP
  hP_pos : 0 < hP

/-- The elements behind the address of one head. -/
abbrev Buffer (T : Type*) := Nat → T

structure CPUKVCacheManager (T : Type*) where
  mPastLength : Nat
  mMaxLength : Nat
  mFlashAttentionUpperKv : Nat
  mCurrentKeySizePerHead : Nat
  mCurrentValueSizePerHead : Nat
  /-- The keys, by head. -/
  mPastKey : Nat → Buffer T
  /-- The values, by head. -/
  mPastValue : Nat → Buffer T

/-- The new rows, as the attention operator is given them. -/
structure Rows (T : Type*) where
  key : Buffer T
  value : Buffer T
  /-- The values are in the format `NC4HW4`. -/
  valueC4 : Bool

namespace KVConfig

variable (config : KVConfig)

def flashAttentionChunkKv : Nat :=
  if config.threadNumber = 1 ∧ config.mValueQuantMode = .none ∧
      (config.mKeyQuantMode = .none ∨ config.mKeyQuantMode = .int8) then
    2048
  else
    64

/-- What `setFlashAttentionUpperKv` is given. -/
def upperKv (mMaxLength : Nat) : Nat :=
  if config.mUseFlashAttention then
    config.flashAttentionChunkKv
  else
    mMaxLength

def keySizePerHead (mMaxLength : Nat) : Nat :=
  upDiv mMaxLength config.hP * roundUp config.mHeadDim config.lP * config.hP

def valueSizePerHead (mMaxLength mFlashAttentionUpperKv : Nat) : Nat :=
  upDiv mMaxLength mFlashAttentionUpperKv * (roundUp config.mHeadDim config.hP *
      roundUp mFlashAttentionUpperKv config.lP)

def keyIndex (seq dim : Nat) : Nat :=
  seq / config.hP * roundUp config.mHeadDim config.lP * config.hP +
    dim / config.lP * config.hP * config.lP +
    seq % config.hP * config.lP + dim % config.lP

def valueIndex (mFlashAttentionUpperKv seq dim : Nat) : Nat :=
  let stride1 :=
    upDiv mFlashAttentionUpperKv config.lP * config.hP * config.lP
  let stride0 := stride1 * upDiv config.mHeadDim config.hP
  let seqInBlock := seq % mFlashAttentionUpperKv
  seq / mFlashAttentionUpperKv * stride0 + dim / config.hP * stride1 +
    seqInBlock / config.lP * config.hP * config.lP +
    dim % config.hP * config.lP + seqInBlock % config.lP

end KVConfig

namespace CPUKVCacheManager

variable {T : Type*} [Zero T] (config : KVConfig)

/-- Write some elements one after the other. -/
def writeAll (writes : List (Nat × T)) (buffer : Buffer T) : Buffer T := writes.foldl
    (fun buffer write => Function.update buffer write.1 write.2) buffer

/-! ## Allocation -/

/-- `onClear` and `onAlloc`, with what the acquired buffers hold. -/
def onAlloc (seq_len : Nat) (freshKey freshValue : Nat → Buffer T) : CPUKVCacheManager T :=
  let mMaxLength := seq_len + config.mExpandChunk
  let upper := config.upperKv mMaxLength
  { mPastLength := 0
    mMaxLength := mMaxLength
    mFlashAttentionUpperKv := upper
    mCurrentKeySizePerHead := config.keySizePerHead mMaxLength
    mCurrentValueSizePerHead := config.valueSizePerHead mMaxLength upper
    mPastKey :=
      if config.mHeadDim % config.lP ≠ 0 then fun _ _ => 0 else freshKey
    mPastValue :=
      if config.lP > 1 ∧
          ¬(config.mUseFlashAttention ∧ config.threadNumber = 1) then
        fun _ _ => 0
      else
        freshValue }

/--
`expandKVCacheInMem`, with the sizes per head before and after.  Without flash
attention the values of a group of `hP` dimensions are copied at a time.
-/
def expandKVCacheInMem (manager : CPUKVCacheManager T) (oldMaxLength oldKeySize oldValueSize : Nat)
    (freshKey freshValue : Nat → Buffer T) : CPUKVCacheManager T :=
  let newValue : Nat → Buffer T := fun h address =>
    if config.mUseFlashAttention then
      if address < oldValueSize then manager.mPastValue h address else 0
    else
      let currentStride1 := roundUp manager.mMaxLength config.lP * config.hP
      let prevStride1 := roundUp oldMaxLength config.lP * config.hP
      let d := address / currentStride1
      let inner := address % currentStride1
      if d < upDiv config.mHeadDim config.hP then
        if inner < prevStride1 then
          manager.mPastValue h (d * prevStride1 + inner)
        else if config.lP > 1 then
          0
        else
          freshValue h address
      else
        freshValue h address
  let newKey : Nat → Buffer T := fun h address =>
    if address < oldKeySize then
      manager.mPastKey h address
    else if address < manager.mCurrentKeySizePerHead then
      0
    else
      freshKey h address
  { manager with
    mPastValue :=
      if oldValueSize ≠ manager.mCurrentValueSizePerHead then
        newValue
      else
        manager.mPastValue
    mPastKey := newKey }

/-- The loops of `moveKV` over one of the two buffers of a head. -/
def moveRows (index : Nat → Nat → Nat) (mHeadDim src dst size : Nat)
    (buffer : Buffer T) : Buffer T :=
  (List.range size).foldl (fun buffer i =>
      (List.range mHeadDim).foldl (fun buffer j =>
          Function.update buffer (index (dst + i) j) (buffer (index (src + i) j)))
        buffer)
    buffer

def moveKV (manager : CPUKVCacheManager T) (src dst size : Nat) : CPUKVCacheManager T :=
  { manager with
    mPastKey := fun h =>
      moveRows config.keyIndex config.mHeadDim src dst size (manager.mPastKey h)
    mPastValue := fun h =>
      moveRows (config.valueIndex manager.mFlashAttentionUpperKv)
        config.mHeadDim src dst size (manager.mPastValue h) }

/-- The rows that `onRealloc` makes room for. -/
def kvSeqLen (kvMeta : KVMeta) : Int :=
  (kvMeta.previous : Int) + kvMeta.add - kvMeta.remove + kvMeta.computeReverseSize

/-- The part of `onRealloc` that makes room. -/
def expand (manager : CPUKVCacheManager T) (kvMeta : KVMeta)
    (freshKey freshValue : Nat → Buffer T) : CPUKVCacheManager T :=
  let kv_seq_len := kvSeqLen kvMeta
  if kv_seq_len > manager.mMaxLength then
    let mMaxLength := kv_seq_len.toNat + config.mExpandChunk
    let upper := config.upperKv mMaxLength
    let resized :=
      { manager with
        mMaxLength := mMaxLength
        mFlashAttentionUpperKv := upper
        mCurrentKeySizePerHead := config.keySizePerHead mMaxLength
        mCurrentValueSizePerHead := config.valueSizePerHead mMaxLength upper }
    expandKVCacheInMem config resized manager.mMaxLength
      manager.mCurrentKeySizePerHead manager.mCurrentValueSizePerHead freshKey
      freshValue
  else
    manager

def onRealloc (manager : CPUKVCacheManager T) (kvMeta : KVMeta)
    (freshKey freshValue : Nat → Buffer T) : CPUKVCacheManager T :=
  let manager := expand config manager kvMeta freshKey freshValue
  let start := manager.mPastLength - kvMeta.remove
  if kvMeta.reserve = [] ∨ config.mKeyQuantMode ≠ .none ∨
      config.mValueQuantMode ≠ .none then
    { manager with mPastLength := start }
  else
    let moved :=
      kvMeta.reserve.foldl (fun (state : CPUKVCacheManager T × Nat) range =>
          (moveKV config state.1 (start + range.1) state.2 range.2, state.2 + range.2))
        (manager, start)
    { moved.1 with mPastLength := moved.2 }

/-! ## New rows -/

def c4Offset (token channel seqLen pack : Nat) : Nat :=
  channel / pack * seqLen * pack + token * pack + channel % pack

/-- `MNNPackC4`, for elements from `dst` on. -/
def mnnPackC4 (dst : Nat) (src : Buffer T) (area depth srcOffset dstOffset : Nat) :
    List (Nat × T) :=
  let depthC4 := depth / 4
  let remain := depth - depthC4 * 4
  ((List.range depthC4).flatMap fun z =>
      (List.range area).flatMap fun x =>
        (List.range 4).map fun y =>
          (dst + z * dstOffset * 4 + (x * 4 + y), src ((z * 4 + y) * srcOffset + x))) ++
    if remain > 0 then
      (List.range area).flatMap fun x =>
        (List.range 4).map fun y =>
          (dst + depthC4 * dstOffset * 4 + (x * 4 + y),
            if y < remain then src ((depthC4 * 4 + y) * srcOffset + x) else 0)
    else
      []

/-- What `ProcessKey` writes for one head. -/
def processKey (mPastLength : Nat) (key : Buffer T) (seqLen kvHead : Nat) : List (Nat × T) :=
  let stride0 := roundUp config.mHeadDim config.lP * config.hP
  let stride1 := config.hP * config.lP
  if config.mBytes = 4 ∧ config.hP = 4 ∧ config.lP = 1 ∧
      mPastLength % config.hP = 0 ∧ seqLen % config.hP = 0 ∧
      config.pack = config.hP then
    mnnPackC4 (mPastLength / config.hP * stride0)
      (fun address => key (kvHead * config.mHeadDim + address))
      config.mHeadDim seqLen (config.mKvNumHead * config.mHeadDim)
      (roundUp config.mHeadDim config.lP)
  else
    (List.range seqLen).flatMap fun i =>
      let key_src := fun j =>
        key (i * config.mKvNumHead * config.mHeadDim + kvHead * config.mHeadDim + j)
      let out_index := (mPastLength + i) / config.hP
      let in_index := (mPastLength + i) % config.hP
      let keyDstRow := out_index * stride0 + in_index * config.lP
      let groups := config.mHeadDim / config.lP
      ((List.range groups).flatMap fun jg =>
          (List.range config.lP).map fun jl =>
            (keyDstRow + jg * stride1 + jl, key_src (jg * config.lP + jl))) ++
        (List.range (config.mHeadDim % config.lP)).map fun jl =>
          (keyDstRow + groups * stride1 + jl, key_src (groups * config.lP + jl))

def loadValue (rows : Rows T) (seqLen token channel : Nat) : T :=
  if rows.valueC4 then
    if seqLen = 1 then
      rows.value channel
    else
      rows.value (c4Offset token channel seqLen config.pack)
  else
    rows.value (token * (config.mKvNumHead * config.mHeadDim) + channel)

/-- The loop over runs of rows that lie in one chunk. -/
def copyRuns (upper : Nat) (value : Buffer T) (channelBase seqLen : Nat) :
    Nat → Nat → Nat → List (Nat × T)
  | 0, _, _ => []
  | fuel + 1, srcToken, dstToken =>
    if srcToken < seqLen then
      let weightStride1 := upDiv upper config.lP * (config.lP * config.hP)
      let weightStride0 := weightStride1 * upDiv config.mHeadDim config.hP
      let block := dstToken / upper
      let inBlock := dstToken % upper
      let run := min (seqLen - srcToken) (upper - inBlock)
      ((List.range (upDiv config.mHeadDim config.hP)).flatMap fun q =>
          (List.range (run * config.hP)).map fun x =>
            (block * weightStride0 + q * weightStride1 + inBlock * config.hP + x, value
                (((channelBase / config.hP + q) * seqLen + srcToken) *
                  config.hP + x))) ++
        copyRuns upper value channelBase seqLen fuel (srcToken + run) (dstToken + run)
    else
      []

/-- What `ProcessValue` writes for one head and one new row. -/
def valueRow (mPastLength upper : Nat) (rows : Rows T) (seqLen kvHead i : Nat) : List (Nat × T) :=
  let channelBase := kvHead * config.mHeadDim
  let weightStride2 := config.lP * config.hP
  let weightStride1 := upDiv upper config.lP * weightStride2
  let weightStride0 := weightStride1 * upDiv config.mHeadDim config.hP
  let kvSeqIndx := mPastLength + i
  let seqInChunk := kvSeqIndx % upper
  let idxInner :=
    kvSeqIndx / upper * weightStride0 + seqInChunk / config.lP * weightStride2 +
      seqInChunk % config.lP
  let fullGroups := config.mHeadDim / config.hP
  (if config.lP > 1 ∧ seqInChunk % config.lP = 0 then
      let tilePtr :=
        kvSeqIndx / upper * weightStride0 + seqInChunk / config.lP * weightStride2
      (List.range (upDiv config.mHeadDim config.hP)).flatMap fun g =>
        (List.range weightStride2).map fun x =>
          (tilePtr + g * weightStride1 + x, 0)
    else
      []) ++
    (((List.range fullGroups).flatMap fun g =>
        (List.range config.hP).map fun c =>
          (g * weightStride1 + idxInner + c * config.lP,
            loadValue config rows seqLen i (channelBase + (g * config.hP + c)))) ++
      (List.range (config.mHeadDim % config.hP)).map fun c =>
        let j := fullGroups * config.hP + c
        (j / config.hP * weightStride1 + j % config.hP * config.lP + idxInner,
          loadValue config rows seqLen i (channelBase + j)))

/-- What `ProcessValue` writes for one head. -/
def processValue (mPastLength upper : Nat) (rows : Rows T) (seqLen kvHead : Nat) : List (Nat × T) :=
  if rows.valueC4 ∧ config.mBytes = 4 ∧ config.pack = config.hP ∧
      config.hP = 4 ∧ config.lP = 1 ∧ config.mHeadDim % config.hP = 0 ∧
      upper > 0 then
    copyRuns config upper rows.value (kvHead * config.mHeadDim) seqLen seqLen 0 mPastLength
  else
    (List.range seqLen).flatMap (valueRow config mPastLength upper rows seqLen kvHead)

/-- `onUpdateKV`; the heads are independent of each other. -/
def onUpdateKV (manager : CPUKVCacheManager T) (rows : Rows T) (add : Nat) : CPUKVCacheManager T :=
  { manager with
    mPastLength := manager.mPastLength + add
    mPastKey := fun h =>
      writeAll (processKey config manager.mPastLength rows.key add h) (manager.mPastKey h)
    mPastValue := fun h =>
      writeAll (processValue config manager.mPastLength manager.mFlashAttentionUpperKv rows add h)
        (manager.mPastValue h) }

def keyAt (manager : CPUKVCacheManager T) (h seq dim : Nat) : T :=
  manager.mPastKey h (config.keyIndex seq dim)

def valueAt (manager : CPUKVCacheManager T) (h seq dim : Nat) : T := manager.mPastValue h
    (config.valueIndex manager.mFlashAttentionUpperKv seq dim)

end CPUKVCacheManager

/-! ## Runs -/

/-- What is edited in the meta data before a forward, and its rows. -/
structure Round (T : Type*) where
  remove : Nat
  reserve : List (Nat × Nat)
  add : Nat
  rows : Rows T
  freshKey : Nat → Buffer T
  freshValue : Nat → Buffer T

/-- The cache and the meta data. -/
structure KVState (T : Type*) where
  manager : CPUKVCacheManager T
  kvMeta : KVMeta

namespace KVState

variable {T : Type*} [Zero T] (config : KVConfig)

/-- The meta data that the forward of a round sees. -/
def edited (state : KVState T) (round : Round T) : KVMeta :=
  { previous := state.kvMeta.previous
    remove := round.remove
    reserve := round.reserve
    add := round.add }

/-- `onRealloc`, `onUpdateKV` and `sync`. -/
def step (state : KVState T) (round : Round T) : KVState T :=
  let edited := state.edited round
  { manager :=
      (state.manager.onRealloc config edited round.freshKey
        round.freshValue).onUpdateKV config round.rows edited.add
    kvMeta := edited.sync }

/-- Behind `onAlloc`. -/
def start (seq_len : Nat) (freshKey freshValue : Nat → Buffer T) : KVState T :=
  { manager := CPUKVCacheManager.onAlloc config seq_len freshKey freshValue
    kvMeta := {} }

/-- Rows are removed that are there, and no reserved range is empty. -/
def Valid (state : KVState T) (round : Round T) : Prop :=
  round.remove ≤ state.kvMeta.previous ∧ ∀ range ∈ round.reserve, 0 < range.2

end KVState

end Mnn.Cpu
