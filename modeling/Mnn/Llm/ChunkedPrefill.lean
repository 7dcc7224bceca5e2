import Mnn.Llm.History

/-!
# Prefill in chunks

`forwardVec` cuts its rows into blocks, advances `all_seq_len` behind each and takes it back
at the end.  Every call of `forwardRaw` is recorded with its rows, their position ids and the
keys which they see.
-/

namespace Mnn.Llm.ChunkedPrefill

open Mnn.Core
open List

/-- The setting `attention_mask`, and `attention_type` where it counts. -/
inductive AttentionMask
  | float
  | mix (sliding_window : Nat)
  | glm
  | glm2
  | int
  deriving DecidableEq

/-- The settings, as `load` leaves them. -/
structure Config where
  mBlockSize : Nat
  mValidBlockSize : List Nat
  attention_mask : AttentionMask
  canOmitMaskPlane : Bool
  mrope_axes : Nat
  last : ∀ size ∈ mValidBlockSize.getLast?, size = mBlockSize
  some_axis : 0 < mrope_axes

/-- What comes of the module's `onForward`. -/
inductive Outcome
  | ok
  | noOutputs
  /-- There are outputs, and one of them cannot be read. -/
  | invalid
  deriving DecidableEq

/-- The ids of each row, along all axes. -/
def gen_position_ids (config : Config) (all_seq_len gen_seq_len seq_len : Nat) : List (List Int) :=
  match config.attention_mask with
  | .glm =>
    if seq_len = 1 then [[(all_seq_len : Int) - gen_seq_len - 2, gen_seq_len + 1]]
    else (List.range (seq_len - 1)).map (fun i : Nat => [(i : Int), 0]) ++ [[(seq_len : Int) - 2, 1]]
  | .glm2 =>
    (List.range seq_len).map fun i => List.replicate config.mrope_axes
      (if seq_len = 1 then (gen_seq_len : Int) else (i + all_seq_len : Nat))
  | _ =>
    (List.range seq_len).map fun i => List.replicate config.mrope_axes ((i + all_seq_len : Nat) : Int)

/-- A mask tells for each row and column, in each plane, whether the key is seen. -/
inductive Mask
  /-- The causal mask without a plane. -/
  | causal
  | planes (cols : Nat) (visible : List (Nat → Nat → Bool))

def fillCausal (seqLen kvSeqLen i j : Nat) : Bool := decide (j ≤ i + (kvSeqLen - seqLen))

def fillSlidingWindow (seqLen kvSeqLen window i j : Nat) : Bool :=
  let queryPos := i + (kvSeqLen - seqLen)
  decide (j ≤ queryPos) && decide (queryPos < j + window)

def fillCausalInt (rowOffset i j : Nat) : Bool := decide (j ≤ i + rowOffset)

def gen_attention_mask (config : Config) (all_seq_len seq_len : Nat) : Mask :=
  let kv_seq_len := all_seq_len + seq_len
  match config.attention_mask with
  | .mix sliding_window =>
    .planes kv_seq_len
      [fillCausal seq_len kv_seq_len, fillSlidingWindow seq_len kv_seq_len sliding_window]
  | .float =>
    let forceDense := !config.mValidBlockSize.isEmpty
    if !forceDense && config.canOmitMaskPlane then .causal
    else .planes seq_len [fillCausal seq_len seq_len]
  | _ => .planes kv_seq_len [fillCausalInt all_seq_len]

/--
The keys which the attention lets row `i` see: a mask over fewer columns belongs to the last of
the keys, and the others are seen.
-/
def Mask.visibleKeys (mask : Mask) (seqLen kvSeqLen padLen i : Nat) : List (List Nat) :=
  match mask with
  | .causal => [(List.range kvSeqLen).filter fun j => decide (j ≤ i + (kvSeqLen - seqLen))]
  | .planes cols visible =>
    let gapLen := if cols = kvSeqLen + padLen then 0 else kvSeqLen - seqLen
    visible.map fun plane => (List.range kvSeqLen).filter fun j =>
      decide (j < gapLen) || decide (cols ≤ j - gapLen) || plane i (j - gapLen)

/-- A call of `forwardRaw`: the input rows in it, and what is said about each. -/
structure ForwardCall where
  rows : List Nat
  add : Nat
  positions : List (List Int)
  visible : List (List (List Nat))

/-- The call for these rows, padded to a size. -/
def call (config : Config) (gen_seq_len : Nat) (llm : Llm) (rows : List Nat) (forwardSize : Nat) :
    ForwardCall where
  rows := rows
  add := rows.length
  positions := gen_position_ids config llm.all_seq_len gen_seq_len forwardSize
  visible := (List.range rows.length).map
    ((gen_attention_mask config llm.all_seq_len forwardSize).visibleKeys rows.length
      (llm.mMeta.keptRows.length + rows.length) (forwardSize - rows.length))

/-- The state of `forwardVec`. -/
structure Prefill where
  llm : Llm
  /-- The status is `RUNNING`. -/
  running : Bool := true
  calls : List ForwardCall := []

variable (config : Config) (outcome : Nat → Outcome) (gen_seq_len : Nat)

/-- `forwardRaw` for rows which `mMeta->add` counts, and whether it returns outputs. -/
def forwardRaw (prefill : Prefill) (rows : List Nat) (forwardSize : Nat) : Prefill × Bool :=
  let made := call config gen_seq_len prefill.llm rows forwardSize
  let pending := { prefill.llm with mMeta := { prefill.llm.mMeta with add := rows.length } }
  if !prefill.running then ({ prefill with llm := pending }, false)
  else
    match outcome prefill.calls.length with
    | .ok =>
      ({ prefill with
        llm := prefill.llm.forwardRaw rows.length
        calls := prefill.calls ++ [made] }, true)
    | .noOutputs => (⟨pending, false, prefill.calls ++ [made]⟩, false)
    | .invalid => (⟨pending, false, prefill.calls ++ [made]⟩, true)

/-- The loop over the full blocks, from block `i` on. -/
def forwardBlocks : Nat → Nat → Prefill → Prefill × Bool
  | 0, _, prefill => (prefill, true)
  | blocks + 1, i, prefill =>
    let rows := List.range' (i * config.mBlockSize) config.mBlockSize
    let made := forwardRaw config outcome gen_seq_len prefill rows config.mBlockSize
    if !made.2 then made
    else forwardBlocks blocks (i + 1)
      { made.1 with llm := made.1.llm.updateContext config.mBlockSize }

/-- The least valid size for the remainder. -/
def forwardSize (blockRemain : Nat) : Nat :=
  match config.mValidBlockSize.getLast? with
  | none => blockRemain
  | some last =>
    (config.mValidBlockSize.dropLast.reverse.takeWhile fun size =>
      decide (blockRemain ≤ size)).getLastD last

/-- `forwardVec` behind the check of the status. -/
def forwardVec (llm : Llm) (seq_len : Nat) : Prefill :=
  if config.mBlockSize = 0 then
    (forwardRaw config outcome gen_seq_len ⟨llm, true, []⟩ (List.range seq_len) seq_len).1
  else
    let blockNumber := seq_len / config.mBlockSize
    let blockRemain := seq_len % config.mBlockSize
    let full := forwardBlocks config outcome gen_seq_len blockNumber 0 ⟨llm, true, []⟩
    if !full.2 then full.1
    else
      let rest :=
        if blockRemain ≠ 0 then
          forwardRaw config outcome gen_seq_len full.1
            (List.range' (blockNumber * config.mBlockSize) blockRemain)
            (forwardSize config blockRemain)
        else full
      if !rest.2 then rest.1
      else
        { rest.1 with
          llm := { rest.1.llm with
            all_seq_len := rest.1.llm.all_seq_len - config.mBlockSize * blockNumber } }

/--
A part of the input: where it starts, its rows, the size of its forward, and by how much the
loop advances `all_seq_len` behind it.
-/
structure Chunk where
  start : Nat
  count : Nat
  size : Nat
  advance : Nat

/-- A full block. -/
def block (i : Nat) : Chunk :=
  ⟨i * config.mBlockSize, config.mBlockSize, config.mBlockSize, config.mBlockSize⟩

/-- The parts into which the settings cut the input. -/
def chunks (seq_len : Nat) : List Chunk :=
  if config.mBlockSize = 0 then [⟨0, seq_len, seq_len, 0⟩]
  else
    (List.range' 0 (seq_len / config.mBlockSize)).map (block config) ++
    if seq_len % config.mBlockSize ≠ 0 then
      [⟨seq_len / config.mBlockSize * config.mBlockSize, seq_len % config.mBlockSize,
        forwardSize config (seq_len % config.mBlockSize), 0⟩]
    else []

/-- The one forward of all rows. -/
def whole (llm : Llm) (seq_len : Nat) : ForwardCall :=
  call config gen_seq_len llm (List.range seq_len) seq_len

/-- What the call says about its rows is what the one forward says. -/
def SaysTheSame (llm : Llm) (seq_len : Nat) (made : ForwardCall) : Prop :=
  ∀ (k row : Nat), made.rows[k]? = some row →
    made.positions[k]? = (whole config gen_seq_len llm seq_len).positions[row]? ∧
      made.visible[k]? = (whole config gen_seq_len llm seq_len).visible[row]?

/-- The chunked forward does what the one forward does. -/
structure Agrees (llm : Llm) (seq_len : Nat) (prefill : Prefill) : Prop where
  covers : prefill.running = true → prefill.calls.flatMap ForwardCall.rows = List.range seq_len
  adds : prefill.running = true → ∀ made ∈ prefill.calls, made.add = made.rows.length
  same : prefill.running = true → ∀ made ∈ prefill.calls,
    SaysTheSame config gen_seq_len llm seq_len made
  leaves : prefill.running = true → prefill.llm.all_seq_len = (llm.forwardRaw seq_len).all_seq_len ∧
    prefill.llm.mMeta.previous = (llm.forwardRaw seq_len).mMeta.previous
  stored : prefill.running = false → prefill.llm.all_seq_len = prefill.llm.mMeta.keptRows.length

/-- The position ids do not show where the input is cut. -/
def PositionsFit (all_seq_len seq_len : Nat) : Prop :=
  match config.attention_mask with
  | .glm => ∀ chunk ∈ chunks config seq_len, chunk.start = 0 ∧ chunk.size = seq_len
  | .glm2 => ∀ chunk ∈ chunks config seq_len,
    (chunk.size = 1 ↔ seq_len = 1) ∨ gen_seq_len = all_seq_len + chunk.start
  | _ => True

/-- The keys which a row sees, by its place in the history. -/
def seenKeys (place : Nat) : List (List Nat) :=
  match config.attention_mask with
  | .mix sliding_window =>
    [List.range (place + 1),
      (List.range (place + 1)).filter fun j => decide (place < j + sliding_window)]
  | _ => [List.range (place + 1)]

theorem filter_range_le {place total : Nat} (less : place < total) (seen keep : Nat → Bool)
    (isSeen : ∀ j < total, seen j = (decide (j ≤ place) && keep j)) :
    (List.range total).filter seen = (List.range (place + 1)).filter keep := by
  obtain ⟨rest, rfl⟩ := Nat.exists_eq_add_of_lt less
  have late : ((List.range rest).map (place + 1 + ·)).filter seen = [] := by
    refine filter_eq_nil_iff.mpr fun j isLate => ?_
    obtain ⟨more, isMore, rfl⟩ := mem_map.mp isLate
    rw [mem_range] at isMore
    rw [isSeen _ (by omega), decide_eq_false (by omega), Bool.false_and]
    exact Bool.false_ne_true
  rw [show place + rest + 1 = place + 1 + rest by omega, range_add, filter_append, late,
    append_nil]
  refine filter_congr fun j isEarly => ?_
  rw [mem_range] at isEarly
  rw [isSeen j (by omega), decide_eq_true (by omega), Bool.true_and]

theorem visibleKeys_eq {all_seq_len count size i : Nat} (fits : count ≤ size) (less : i < count) :
    (gen_attention_mask config all_seq_len size).visibleKeys count (all_seq_len + count)
      (size - count) i = seenKeys config (all_seq_len + i) := by
  have wide : all_seq_len + size = all_seq_len + count + (size - count) := by omega
  have gap : all_seq_len + count - count = all_seq_len := by omega
  have gap' : all_seq_len + size - size = all_seq_len := by omega
  have causal : ∀ seen : Nat → Bool,
      (∀ j < all_seq_len + count, (seen j = true ↔ j ≤ all_seq_len + i)) →
      (List.range (all_seq_len + count)).filter seen = List.range (all_seq_len + i + 1) := by
    intro seen isSeen
    have inside : all_seq_len + i < all_seq_len + count := by omega
    rw [filter_range_le inside seen (fun _ => true) fun j jLess => by
      rw [Bool.and_true, Bool.eq_iff_iff, isSeen j jLess, decide_eq_true_iff], filter_true]
  cases isKind : config.attention_mask with
  | float =>
    simp only [gen_attention_mask, seenKeys, isKind]
    split
    next =>
      refine congrArg (fun keys => [keys]) (causal _ fun j _ => ?_)
      rw [decide_eq_true_iff]
      omega
    next =>
      refine congrArg (fun keys => [keys]) (causal _ fun j jLess => ?_)
      simp only [fillCausal, Bool.or_eq_true, decide_eq_true_iff]
      split <;> omega
  | mix window =>
    simp only [gen_attention_mask, seenKeys, isKind, Mask.visibleKeys, if_pos wide, map_cons,
      map_nil]
    refine congrArg₂ (fun first second => [first, second]) (causal _ fun j jLess => ?_)
      (filter_range_le (by omega) _ _ fun j jLess => ?_)
    · simp only [fillCausal, Bool.or_eq_true, decide_eq_true_iff]
      omega
    · rw [Bool.eq_iff_iff]
      simp only [fillSlidingWindow, Bool.or_eq_true, Bool.and_eq_true, decide_eq_true_iff]
      omega
  | _ =>
    simp only [gen_attention_mask, seenKeys, isKind, Mask.visibleKeys, if_pos wide, map_cons,
      map_nil]
    refine congrArg (fun keys => [keys]) (causal _ fun j jLess => ?_)
    simp only [fillCausalInt, Bool.or_eq_true, decide_eq_true_iff]
    omega

/-! ## The parts of the input -/

theorem le_forwardSize {blockRemain : Nat} (less : blockRemain < config.mBlockSize) :
    blockRemain ≤ forwardSize config blockRemain := by
  unfold forwardSize
  split
  next => exact le_rfl
  next last isLast =>
    have atLeast : blockRemain ≤ last := (config.last last isLast).symm ▸ less.le
    rcases eq_nil_or_concat (config.mValidBlockSize.dropLast.reverse.takeWhile fun size =>
      decide (blockRemain ≤ size)) with none | ⟨front, size, isList⟩
    · rw [none]
      exact atLeast
    · have member : size ∈ config.mValidBlockSize.dropLast.reverse.takeWhile fun size =>
          decide (blockRemain ≤ size) := by
        rw [isList, concat_eq_append]
        exact mem_concat_self
      rw [isList, concat_eq_append, getLastD_concat]
      have fits := mem_takeWhile_imp member
      exact of_decide_eq_true fits

/-- The parts follow each other, and all but the last are advanced by and not padded. -/
def Tiles : Nat → List Chunk → Prop
  | _, [] => True
  | start, chunk :: rest =>
    chunk.start = start ∧ 0 < chunk.count ∧ chunk.count ≤ chunk.size ∧
      (rest ≠ [] → chunk.advance = chunk.count ∧ chunk.size = chunk.count) ∧ Tiles (start + chunk.count) rest

/-- The rows of some parts. -/
def rowsOf (parts : List Chunk) : Nat := (parts.map Chunk.count).sum

/-- What the loop adds to `all_seq_len` behind some parts. -/
def advanceOf (parts : List Chunk) : Nat := (parts.map Chunk.advance).sum

variable {config outcome gen_seq_len} {llm : Llm} {seq_len start : Nat} {parts : List Chunk}

theorem Tiles.inside (tiles : Tiles start parts) {chunk : Chunk} (member : chunk ∈ parts) :
    0 < chunk.count ∧ chunk.start + chunk.count ≤ start + rowsOf parts ∧
      chunk.count ≤ chunk.size := by
  induction parts generalizing start with
  | nil => nomatch member
  | cons first rest ih =>
    obtain ⟨rfl, some, fits, -, later⟩ := tiles
    rw [rowsOf, map_cons, sum_cons]
    rcases mem_cons.mp member with rfl | member
    · omega
    · have inside := ih later member
      rw [rowsOf] at inside
      omega

theorem Tiles.cover (tiles : Tiles start parts) :
    parts.flatMap (fun chunk => List.range' chunk.start chunk.count) =
      List.range' start (rowsOf parts) := by
  induction parts generalizing start with
  | nil => rfl
  | cons first rest ih =>
    obtain ⟨rfl, -, -, -, later⟩ := tiles
    rw [flatMap_cons, ih later, range'_append_1]
    rfl

theorem Tiles.advance {after : List Chunk} (tiles : Tiles start (parts ++ after))
    (some : after ≠ []) : advanceOf parts = rowsOf parts := by
  induction parts generalizing start with
  | nil => rfl
  | cons first rest ih =>
    obtain ⟨-, -, -, advances, later⟩ := tiles
    have same := (advances fun none => some (append_eq_nil_iff.mp none).2).1
    have sums := ih later
    rw [advanceOf, rowsOf] at sums ⊢
    rw [map_cons, sum_cons, map_cons, sum_cons, same, sums]

theorem tiles_blocks (blockPos : 0 < config.mBlockSize) (i blocks : Nat) {rest : List Chunk}
    (tiles : Tiles ((i + blocks) * config.mBlockSize) rest) :
    Tiles (i * config.mBlockSize) ((List.range' i blocks).map (block config) ++ rest) ∧
      rowsOf ((List.range' i blocks).map (block config) ++ rest) =
        blocks * config.mBlockSize + rowsOf rest := by
  induction blocks generalizing i with
  | zero => exact ⟨tiles, by simp⟩
  | succ blocks ih =>
    have later := ih (i + 1) (by rwa [show i + 1 + blocks = i + (blocks + 1) by omega])
    rw [range'_succ, map_cons, cons_append]
    refine ⟨⟨rfl, blockPos, le_rfl, fun _ => ⟨rfl, rfl⟩, ?_⟩, ?_⟩
    · rw [show i * config.mBlockSize + (block config i).count = (i + 1) * config.mBlockSize from
        (Nat.succ_mul ..).symm]
      exact later.1
    · rw [rowsOf, map_cons, sum_cons, ← rowsOf, later.2, Nat.succ_mul]
      show config.mBlockSize + _ = _
      omega

variable (config) in
theorem tiles_chunks (positive : 0 < seq_len) :
    Tiles 0 (chunks config seq_len) ∧ rowsOf (chunks config seq_len) = seq_len := by
  have sum := Nat.div_add_mod' seq_len config.mBlockSize
  unfold chunks
  split
  next => exact ⟨⟨rfl, positive, le_rfl, fun none => absurd rfl none, trivial⟩, by simp [rowsOf]⟩
  next someBlock =>
    have blockPos := pos_of_ne_zero someBlock
    have cut : ∀ rest, Tiles (seq_len / config.mBlockSize * config.mBlockSize) rest → _ :=
      fun rest tiles => tiles_blocks blockPos 0 (seq_len / config.mBlockSize) (by rwa [zero_add])
    rw [zero_mul] at cut
    split
    next some =>
      have less := Nat.mod_lt seq_len blockPos
      have made := cut [⟨seq_len / config.mBlockSize * config.mBlockSize,
        seq_len % config.mBlockSize, forwardSize config (seq_len % config.mBlockSize), 0⟩]
        ⟨rfl, pos_of_ne_zero some, le_forwardSize config less, fun none => absurd rfl none,
          trivial⟩
      exact ⟨made.1, made.2.trans sum⟩
    next none =>
      have made := cut [] trivial
      rw [not_not.mp none, add_zero] at sum
      exact ⟨made.1, made.2.trans sum⟩

/-! ## What a call says -/

/-- The call for a part, when the rows before it are done. -/
def chunkCall (config : Config) (gen_seq_len : Nat) (llm : Llm) (chunk : Chunk) : ForwardCall :=
  call config gen_seq_len
    ⟨{ previous := llm.mMeta.keptRows.length + chunk.start }, llm.all_seq_len + chunk.start⟩
    (List.range' chunk.start chunk.count) chunk.size

variable (gen_seq_len) in
theorem position_of_glm (all_seq_len : Nat) {size k : Nat} (glm : config.attention_mask = .glm)
    (less : k < size) :
    ∃ first, (gen_position_ids config all_seq_len gen_seq_len size)[k]? =
      some [first, if k + 1 = size then if size = 1 then (gen_seq_len : Int) + 1 else 1 else 0] := by
  unfold gen_position_ids
  rw [glm]
  by_cases one : size = 1
  · obtain rfl : k = 0 := by omega
    refine ⟨(all_seq_len : Int) - gen_seq_len - 2, ?_⟩
    rw [if_pos one, if_pos (by omega), if_pos one]
    rfl
  · simp only [if_neg one]
    by_cases isLast : k + 1 = size
    · refine ⟨(size : Int) - 2, ?_⟩
      rw [getElem?_append_right (by simp; omega), length_map, length_range,
        show k - (size - 1) = 0 by omega, if_pos isLast]
      rfl
    · refine ⟨k, ?_⟩
      rw [getElem?_append_left (by simp; omega), getElem?_map,
        getElem?_range (by omega), if_neg isLast]
      rfl

variable (gen_seq_len) in
theorem position_of_others (all_seq_len : Nat) {size k : Nat} (glm : config.attention_mask ≠ .glm)
    (less : k < size) :
    (gen_position_ids config all_seq_len gen_seq_len size)[k]? =
      some (List.replicate config.mrope_axes (if config.attention_mask = .glm2 ∧ size = 1 then
        (gen_seq_len : Int) else (k + all_seq_len : Nat))) := by
  unfold gen_position_ids
  cases isKind : config.attention_mask <;> simp_all

theorem saysTheSame_iff (counted : llm.all_seq_len = llm.mMeta.keptRows.length) {chunk : Chunk}
    (inside : chunk.start + chunk.count ≤ seq_len) (fits : chunk.count ≤ chunk.size) :
    SaysTheSame config gen_seq_len llm seq_len (chunkCall config gen_seq_len llm chunk) ↔
      ∀ k < chunk.count,
        (gen_position_ids config (llm.all_seq_len + chunk.start) gen_seq_len chunk.size)[k]? =
          (gen_position_ids config llm.all_seq_len gen_seq_len seq_len)[chunk.start + k]? := by
  have rows : ∀ k row, (chunkCall config gen_seq_len llm chunk).rows[k]? = some row ↔
      k < chunk.count ∧ row = chunk.start + k := by
    intro k row
    show (List.range' chunk.start chunk.count)[k]? = some row ↔ _
    rw [List.getElem?_eq_some_iff]
    simp only [getElem_range', one_mul, length_range', exists_prop, eq_comm]
  unfold SaysTheSame
  simp only [rows]
  constructor
  · intro same k less
    exact (same k _ ⟨less, rfl⟩).1
  · rintro same k _ ⟨less, rfl⟩
    refine ⟨same k less, ?_⟩
    have kept : (List.range (llm.all_seq_len + chunk.start)).length =
        llm.all_seq_len + chunk.start := length_range
    simp only [chunkCall, whole, call, KVMeta.keptRows, Nat.sub_zero, flatMap_nil,
      append_nil, length_range, length_range']
    have wholeKept : llm.mMeta.keptRows.length = llm.all_seq_len := counted.symm
    simp only [KVMeta.keptRows] at wholeKept
    rw [wholeKept, getElem?_map, getElem?_map, getElem?_range less,
      getElem?_range (by omega), Option.map_some, Option.map_some, visibleKeys_eq config fits less,
      visibleKeys_eq config le_rfl (by omega), add_assoc]

theorem positionsFit_iff (positive : 0 < seq_len) (all_seq_len : Nat) :
    PositionsFit config gen_seq_len all_seq_len seq_len ↔
      ∀ chunk ∈ chunks config seq_len, ∀ k < chunk.count,
        (gen_position_ids config (all_seq_len + chunk.start) gen_seq_len chunk.size)[k]? =
          (gen_position_ids config all_seq_len gen_seq_len seq_len)[chunk.start + k]? := by
  obtain ⟨tiles, rows⟩ := tiles_chunks config positive
  by_cases glm : config.attention_mask = .glm
  · simp only [PositionsFit, glm]
    constructor
    · intro fit chunk member k _
      rw [(fit chunk member).1, (fit chunk member).2, zero_add, add_zero]
    · intro same
      -- the last row of a part has its second entry only at the end of the input
      have ends : ∀ chunk ∈ chunks config seq_len, ∀ k < chunk.count,
          (k + 1 = chunk.size ↔ chunk.start + k + 1 = seq_len) := by
        intro chunk member k less
        obtain ⟨-, inside, fits⟩ := tiles.inside member
        obtain ⟨_, here⟩ := position_of_glm gen_seq_len (all_seq_len + chunk.start) glm
          (less.trans_le fits)
        obtain ⟨_, there⟩ := position_of_glm gen_seq_len all_seq_len glm
          (show chunk.start + k < seq_len by omega)
        have equal := same chunk member k less
        rw [here, there] at equal
        simp only [Option.some.injEq, List.cons.injEq, and_true] at equal
        have second := equal.2
        constructor
        · intro isEnd
          by_contra notEnd
          rw [if_pos isEnd, if_neg notEnd] at second
          split at second <;> omega
        · intro isEnd
          by_contra notEnd
          rw [if_neg notEnd, if_pos isEnd] at second
          split at second <;> omega
      have last := fun chunk member => ends chunk member (chunk.count - 1)
      obtain ⟨first, rest, isList⟩ := exists_cons_of_ne_nil
        (show chunks config seq_len ≠ [] from fun none => by
          rw [none] at rows
          exact absurd rows positive.ne)
      rw [isList] at tiles rows last ⊢
      obtain ⟨isStart, some, -, whole, later⟩ := tiles
      have isEnd := last first mem_cons_self (by omega)
      rw [rowsOf, map_cons, sum_cons, ← rowsOf] at rows
      cases rest with
      | nil =>
        rw [rowsOf, map_nil, sum_nil] at rows
        intro chunk member
        obtain rfl := mem_singleton.mp member
        omega
      | cons second rest =>
        have more := (later.inside mem_cons_self).1
        have full := (whole (cons_ne_nil _ _)).2
        rw [rowsOf, map_cons, sum_cons] at rows
        omega
  · have others : ∀ chunk ∈ chunks config seq_len, ∀ k < chunk.count,
        ((gen_position_ids config (all_seq_len + chunk.start) gen_seq_len chunk.size)[k]? =
          (gen_position_ids config all_seq_len gen_seq_len seq_len)[chunk.start + k]? ↔
        (config.attention_mask = .glm2 →
          (chunk.size = 1 ↔ seq_len = 1) ∨ gen_seq_len = all_seq_len + chunk.start)) := by
      intro chunk member k less
      obtain ⟨-, inside, fits⟩ := tiles.inside member
      rw [position_of_others gen_seq_len _ glm (less.trans_le fits),
        position_of_others gen_seq_len _ glm (show chunk.start + k < seq_len by omega),
        Option.some.injEq, replicate_right_inj config.some_axis.ne']
      by_cases glm2 : config.attention_mask = .glm2
      · simp only [glm2, true_and, true_implies]
        split <;> split <;> omega
      · simp only [glm2, false_and, if_false, false_implies, iff_true]
        omega
    have fit : PositionsFit config gen_seq_len all_seq_len seq_len ↔
        (config.attention_mask = .glm2 → ∀ chunk ∈ chunks config seq_len,
          (chunk.size = 1 ↔ seq_len = 1) ∨ gen_seq_len = all_seq_len + chunk.start) := by
      unfold PositionsFit
      cases isKind : config.attention_mask <;> simp_all
    rw [fit]
    constructor
    · intro fits chunk member k less
      exact (others chunk member k less).mpr fun glm2 => fits glm2 chunk member
    · intro same glm2 chunk member
      have some := (tiles.inside member).1
      exact (others chunk member 0 some).mp (same chunk member 0 some) glm2

/-! ## Runs -/

/-- The rows before a place are done. -/
def Reached (llm : Llm) (start : Nat) (now : Llm) : Prop :=
  now.all_seq_len = llm.all_seq_len + start ∧
    now.mMeta.keptRows.length = llm.mMeta.keptRows.length + start

variable (config outcome gen_seq_len) {now : Llm} {calls : List ForwardCall}

theorem call_of_reached (chunk : Chunk) (reached : Reached llm chunk.start now) :
    call config gen_seq_len now (List.range' chunk.start chunk.count) chunk.size =
      chunkCall config gen_seq_len llm chunk := by
  unfold chunkCall call
  rw [reached.1, reached.2]
  simp [KVMeta.keptRows]

theorem forwardRaw_ok (now : Llm) (isOk : outcome calls.length = .ok) (rows : List Nat) (size : Nat) :
    forwardRaw config outcome gen_seq_len ⟨now, true, calls⟩ rows size =
      (⟨now.forwardRaw rows.length, true,
        calls ++ [call config gen_seq_len now rows size]⟩, true) := by
  simp [forwardRaw, isOk]

theorem forwardRaw_fails (now : Llm) (notOk : outcome calls.length ≠ .ok) (rows : List Nat) (size : Nat) :
    ∃ made later, forwardRaw config outcome gen_seq_len ⟨now, true, calls⟩ rows size =
        (⟨later, false, made⟩, decide (outcome calls.length = .invalid)) ∧
      later.all_seq_len = now.all_seq_len ∧ later.mMeta.keptRows = now.mMeta.keptRows := by
  unfold forwardRaw
  cases isOutcome : outcome calls.length with
  | ok => exact absurd isOutcome notOk
  | noOutputs => exact ⟨_, _, rfl, rfl, rfl⟩
  | invalid => exact ⟨_, _, rfl, rfl, rfl⟩

theorem forwardRaw_stopped (now : Llm) (calls : List ForwardCall) (rows : List Nat) (size : Nat) :
    ∃ later, forwardRaw config outcome gen_seq_len ⟨now, false, calls⟩ rows size =
        (⟨later, false, calls⟩, false) ∧
      later.all_seq_len = now.all_seq_len ∧ later.mMeta.keptRows = now.mMeta.keptRows :=
  ⟨_, rfl, rfl, rfl⟩

theorem Reached.forwardRaw {start : Nat} (reached : Reached llm start now) (count : Nat) :
    Reached llm (start + count) ((now.forwardRaw count).updateContext count) ∧
      (now.forwardRaw count).mMeta.previous = llm.mMeta.keptRows.length + (start + count) := by
  have settled := Llm.settled_forwardRaw now count
  rw [reached.2, add_assoc] at settled
  refine ⟨⟨?_, ?_⟩, settled.1⟩
  · show now.all_seq_len + count = _
    rw [reached.1, add_assoc]
  · exact (congrArg List.length settled.2).trans length_range

/-- The forwards of some parts, one after another. -/
def forwardChunks : List Chunk → Prefill → Prefill × Bool
  | [], prefill => (prefill, true)
  | chunk :: rest, prefill =>
    let made := forwardRaw config outcome gen_seq_len prefill
      (List.range' chunk.start chunk.count) chunk.size
    if !made.2 then made
    else forwardChunks rest { made.1 with llm := made.1.llm.updateContext chunk.advance }

theorem forwardChunks_append (parts after : List Chunk) (prefill : Prefill) :
    forwardChunks config outcome gen_seq_len (parts ++ after) prefill =
      if (forwardChunks config outcome gen_seq_len parts prefill).2 then
        forwardChunks config outcome gen_seq_len after
          (forwardChunks config outcome gen_seq_len parts prefill).1
      else forwardChunks config outcome gen_seq_len parts prefill := by
  induction parts generalizing prefill with
  | nil => rfl
  | cons chunk parts ih =>
    rw [cons_append, forwardChunks, forwardChunks]
    simp only
    split
    next stops =>
      rw [Bool.not_eq_true'] at stops
      rw [stops]
      rfl
    next => exact ih _

theorem forwardBlocks_eq (blocks i : Nat) (prefill : Prefill) :
    forwardBlocks config outcome gen_seq_len blocks i prefill =
      forwardChunks config outcome gen_seq_len ((List.range' i blocks).map (block config))
        prefill := by
  induction blocks generalizing i prefill with
  | zero => rfl
  | succ blocks ih =>
    rw [range'_succ, map_cons, forwardBlocks, forwardChunks]
    simp only [block, ih]
    rfl

/-- `forwardVec` goes through the parts, and takes back what it advanced. -/
theorem forwardVec_eq (llm : Llm) (seq_len : Nat) :
    forwardVec config outcome gen_seq_len llm seq_len =
      let made := forwardChunks config outcome gen_seq_len (chunks config seq_len) ⟨llm, true, []⟩
      if !made.2 then made.1
      else
        { made.1 with
          llm := { made.1.llm with
            all_seq_len := made.1.llm.all_seq_len - advanceOf (chunks config seq_len) } } := by
  have advances : ∀ i blocks, advanceOf ((List.range' i blocks).map (block config)) =
      config.mBlockSize * blocks := by
    intro i blocks
    simp [advanceOf, Function.comp_def, block, mul_comm]
  unfold forwardVec chunks
  by_cases noBlock : config.mBlockSize = 0
  · simp only [if_pos noBlock, forwardChunks, range_eq_range']
    split <;> rfl
  · simp only [if_neg noBlock, forwardBlocks_eq, forwardChunks_append]
    by_cases goesOn : (forwardChunks config outcome gen_seq_len
        ((List.range' 0 (seq_len / config.mBlockSize)).map (block config)) ⟨llm, true, []⟩).2 = true
    · by_cases rest : seq_len % config.mBlockSize = 0
      · simp [goesOn, rest, forwardChunks, advances]
      · simp only [goesOn, rest, ne_eq, not_false_eq_true, if_true, forwardChunks, Bool.not_true,
          Bool.false_eq_true, if_false]
        have total : advanceOf ((List.range' 0 (seq_len / config.mBlockSize)).map (block config) ++
            [⟨seq_len / config.mBlockSize * config.mBlockSize, seq_len % config.mBlockSize,
              forwardSize config (seq_len % config.mBlockSize), 0⟩]) =
            config.mBlockSize * (seq_len / config.mBlockSize) := by
          rw [advanceOf, map_append, sum_append, ← advanceOf, advances]
          rfl
        rw [total]
        split <;> simp_all [Llm.updateContext]
    · simp [goesOn]

theorem forwardChunks_ok (now : Llm) (calls : List ForwardCall) {after : List Chunk}
    (isOk : ∀ call < calls.length + parts.length, outcome call = .ok)
    (tiles : Tiles start (parts ++ after)) (reached : Reached llm start now) :
    ∃ later, forwardChunks config outcome gen_seq_len parts ⟨now, true, calls⟩ =
        (⟨later, true, calls ++ parts.map (chunkCall config gen_seq_len llm)⟩, true) ∧
      (after ≠ [] → Reached llm (start + rowsOf parts) later) ∧
      later.all_seq_len = now.all_seq_len + advanceOf parts ∧
      (parts ≠ [] → later.mMeta.previous = llm.mMeta.keptRows.length + (start + rowsOf parts)) := by
  induction parts generalizing start now calls with
  | nil => exact ⟨now, by simp [forwardChunks], fun _ => reached, rfl, nofun⟩
  | cons chunk parts ih =>
    obtain ⟨rfl, -, -, advances, laterTiles⟩ := tiles
    rw [length_cons] at isOk
    have first := forwardRaw_ok config outcome gen_seq_len now (isOk calls.length (by omega))
      (List.range' chunk.start chunk.count) chunk.size
    rw [call_of_reached config gen_seq_len chunk reached, length_range'] at first
    have next := reached.forwardRaw chunk.count
    rw [forwardChunks, first]
    simp only [Bool.not_true, Bool.false_eq_true, if_false]
    by_cases none : parts ++ after = []
    · obtain ⟨rfl, rfl⟩ := append_eq_nil_iff.mp none
      exact ⟨_, rfl, fun some => absurd rfl some, rfl, fun _ => next.2⟩
    · rw [(advances none).1]
      obtain ⟨later, isLater, reachedLater, total, previous⟩ := ih _
        (calls ++ [chunkCall config gen_seq_len llm chunk])
        (fun call less => isOk call (by simp at less; omega)) laterTiles next.1
      have sum : chunk.start + rowsOf (chunk :: parts) =
          chunk.start + chunk.count + rowsOf parts := (add_assoc ..).symm
      refine ⟨later, by simpa using isLater, fun some => sum ▸ reachedLater some, ?_, fun _ => ?_⟩
      · rw [total, advanceOf, advanceOf, map_cons, sum_cons, (advances none).1, ← add_assoc]
        rfl
      · rw [sum]
        cases parts with
        | nil =>
          simp only [forwardChunks, Prod.mk.injEq, Prefill.mk.injEq] at isLater
          rw [← isLater.1.1]
          exact next.2
        | cons => exact previous (cons_ne_nil _ _)

theorem forwardVec_ok (llm : Llm) (positive : 0 < seq_len)
    (isOk : ∀ call < (chunks config seq_len).length, outcome call = .ok) :
    ∃ later, forwardVec config outcome gen_seq_len llm seq_len =
        ⟨later, true, (chunks config seq_len).map (chunkCall config gen_seq_len llm)⟩ ∧
      later.all_seq_len = llm.all_seq_len ∧
      later.mMeta.previous = llm.mMeta.keptRows.length + seq_len := by
  obtain ⟨tiles, rows⟩ := tiles_chunks config positive
  rw [← append_nil (chunks config seq_len)] at tiles
  obtain ⟨later, isLater, -, total, previous⟩ := forwardChunks_ok config outcome gen_seq_len llm []
    (by simpa using isOk) tiles ⟨rfl, rfl⟩
  have some : chunks config seq_len ≠ [] := fun none => by
    rw [none] at rows
    exact positive.ne rows
  rw [forwardVec_eq, isLater]
  refine ⟨_, rfl, ?_, ?_⟩
  · show later.all_seq_len - _ = _
    rw [total, Nat.add_sub_cancel]
  · rw [← rows]
    simpa using previous some

theorem forwardVec_fails (positive : 0 < seq_len)
    (counted : llm.all_seq_len = llm.mMeta.keptRows.length) {call : Nat}
    (less : call < (chunks config seq_len).length) (isOk : ∀ earlier < call, outcome earlier = .ok)
    (notOk : outcome call ≠ .ok) :
    (forwardVec config outcome gen_seq_len llm seq_len).running = false ∧
      ((forwardVec config outcome gen_seq_len llm seq_len).llm.all_seq_len =
          (forwardVec config outcome gen_seq_len llm seq_len).llm.mMeta.keptRows.length ↔
        (outcome call = .invalid → (chunks config seq_len).length = 1)) := by
  obtain ⟨tiles, -⟩ := tiles_chunks config positive
  rw [forwardVec_eq]
  obtain ⟨before, chunk, after, isList, rfl⟩ : ∃ before chunk after,
      chunks config seq_len = before ++ chunk :: after ∧ before.length = call :=
    ⟨_, _, _, (take_append_drop call _).symm.trans
      (congrArg _ (drop_eq_getElem_cons less)), length_take_of_le less.le⟩
  rw [isList] at tiles ⊢
  obtain ⟨now, isNow, reached, -⟩ := forwardChunks_ok config outcome gen_seq_len llm []
    (by simpa using isOk) tiles ⟨rfl, rfl⟩
  have advanced := tiles.advance (cons_ne_nil _ _)
  obtain ⟨total, kept⟩ := reached (cons_ne_nil _ _)
  rw [zero_add] at total kept
  set calls := [] ++ before.map (chunkCall config gen_seq_len llm) with isCalls
  have number : calls.length = before.length := by simp [isCalls]
  obtain ⟨made, pending, isPending, counted', kept'⟩ := forwardRaw_fails config outcome gen_seq_len
    now (number.symm ▸ notOk) (List.range' chunk.start chunk.count) chunk.size
  have stored := (congrArg List.length kept').trans kept
  rw [number] at isPending
  simp only [forwardChunks_append, isNow, if_true, forwardChunks, isPending]
  by_cases invalid : outcome before.length = .invalid
  · have empty : rowsOf before = 0 ↔ before.length = 0 := by
      cases before with
      | nil => exact iff_of_true rfl rfl
      | cons first before =>
        have some := (tiles.inside mem_cons_self).1
        rw [rowsOf, map_cons, sum_cons, length_cons]
        omega
    simp only [invalid, decide_true, Bool.not_true, Bool.false_eq_true, if_false, true_implies,
      length_append, length_cons]
    cases after with
    | nil =>
      simp only [forwardChunks, Bool.not_true, Bool.false_eq_true, if_false]
      refine ⟨trivial, ?_⟩
      have sum : advanceOf (before ++ [chunk]) = rowsOf before + chunk.advance := by
        rw [advanceOf, map_append, sum_append, ← advanceOf, advanced]
        rfl
      show pending.all_seq_len + chunk.advance - advanceOf (before ++ [chunk]) =
        pending.mMeta.keptRows.length ↔ _
      rw [sum, stored, counted', total, length_nil]
      omega
    | cons next after =>
      obtain ⟨later, isLater, counted'', kept''⟩ := forwardRaw_stopped config outcome gen_seq_len
        (pending.updateContext chunk.advance) made (List.range' next.start next.count) next.size
      simp only [forwardChunks, isLater, Bool.not_false, if_true]
      refine ⟨trivial, ?_⟩
      have full : chunk.advance = chunk.count ∧ 0 < chunk.count := by
        have lastTiles : Tiles 0 ((before ++ [chunk]) ++ next :: after) := by
          rwa [append_assoc, singleton_append]
        have sums := lastTiles.advance (cons_ne_nil _ _)
        have some := (tiles.inside (mem_append_cons_self)).1
        simp only [advanceOf, rowsOf, map_append, sum_append, map_cons,
          map_nil, sum_singleton] at sums advanced
        omega
      rw [counted'', kept'', length_cons]
      show pending.all_seq_len + chunk.advance = pending.mMeta.keptRows.length ↔ _
      rw [counted', total, stored]
      omega
  · simp only [invalid, decide_false, Bool.not_false, if_true]
    refine ⟨trivial, iff_of_true ?_ nofun⟩
    rw [counted', stored, total, counted]

/--
The chunked forward does what the one forward does exactly if no position id shows a cut when
all forwards succeed, and a forward whose outputs cannot be read is the only one.
-/
theorem forwardVec_agrees_iff (llm : Llm) (positive : 0 < seq_len)
    (counted : llm.all_seq_len = llm.mMeta.keptRows.length) :
    Agrees config gen_seq_len llm seq_len (forwardVec config outcome gen_seq_len llm seq_len) ↔
      ((∀ call < (chunks config seq_len).length, outcome call = .ok) →
        PositionsFit config gen_seq_len llm.all_seq_len seq_len) ∧
      ∀ call < (chunks config seq_len).length, (∀ earlier < call, outcome earlier = .ok) →
        outcome call = .invalid → (chunks config seq_len).length = 1 := by
  obtain ⟨tiles, rows⟩ := tiles_chunks config positive
  by_cases isOk : ∀ call < (chunks config seq_len).length, outcome call = .ok
  · have noneInvalid : ∀ call < (chunks config seq_len).length, outcome call ≠ .invalid :=
      fun call less invalid => nomatch (isOk call less).symm.trans invalid
    obtain ⟨later, isLater, total, previous⟩ :=
      forwardVec_ok config outcome gen_seq_len llm positive isOk
    rw [isLater, positionsFit_iff positive]
    constructor
    · intro agrees
      refine ⟨fun _ chunk member => ?_, fun call less _ invalid =>
        absurd invalid (noneInvalid call less)⟩
      obtain ⟨-, inside, fits⟩ := tiles.inside member
      exact (saysTheSame_iff counted (by omega) fits).mp
        (agrees.same rfl _ (mem_map_of_mem member))
    · rintro ⟨fit, -⟩
      refine ⟨fun _ => ?_, fun _ => ?_, fun _ => ?_, fun _ => ⟨total, ?_⟩, nofun⟩
      · rw [flatMap_map]
        exact tiles.cover.trans (by rw [rows, range_eq_range'])
      · rw [forall_mem_map]
        exact fun _ _ => rfl
      · rw [forall_mem_map]
        intro chunk member
        obtain ⟨-, inside, fits⟩ := tiles.inside member
        exact (saysTheSame_iff counted (by omega) fits).mpr (fit isOk chunk member)
      · exact previous.trans (Llm.settled_forwardRaw llm seq_len).1.symm
  · push Not at isOk
    obtain ⟨less, notOk⟩ := Nat.find_spec isOk
    have earlier : ∀ call < Nat.find isOk, outcome call = .ok := fun call isLess => by
      by_contra fails
      exact Nat.find_min isOk isLess ⟨isLess.trans less, fails⟩
    obtain ⟨stopped, stored⟩ :=
      forwardVec_fails config outcome gen_seq_len positive counted less earlier notOk
    constructor
    · intro agrees
      refine ⟨fun all => absurd (all _ less) notOk, fun call isLess before invalid => ?_⟩
      have same : call = Nat.find isOk := by
        rcases lt_trichotomy call (Nat.find isOk) with isLess | same | more
        · nomatch (earlier call isLess).symm.trans invalid
        · exact same
        · exact absurd (before _ more) notOk
      exact stored.mp (agrees.stored stopped) (same ▸ invalid)
    · rintro ⟨-, alone⟩
      have running : (forwardVec config outcome gen_seq_len llm seq_len).running ≠ true := by
        rw [stopped]
        exact Bool.false_ne_true
      exact ⟨fun runs => absurd runs running, fun runs => absurd runs running,
        fun runs => absurd runs running, fun runs => absurd runs running,
        fun _ => stored.mpr (alone _ less earlier)⟩

/-- Five rows in blocks of two are what one forward makes of them. -/
theorem forwardVec_agrees_five :
    Agrees ⟨2, [], .float, true, 1, nofun, by decide⟩ 0 { all_seq_len := 3, mMeta.previous := 3 } 5
      (forwardVec ⟨2, [], .float, true, 1, nofun, by decide⟩ (fun _ => .ok) 0
        { all_seq_len := 3, mMeta.previous := 3 } 5) :=
  (forwardVec_agrees_iff _ (fun _ => .ok) 0 _ (by decide) (by decide)).mpr
    ⟨fun _ => trivial, fun _ _ _ => nofun⟩

/--
The second of two blocks of `glm` starts its ids anew; and behind a block whose outputs cannot
be read, `all_seq_len` counts rows which are not stored.
-/
theorem not_forwardVec_agrees : ¬Agrees ⟨2, [], .glm, true, 1, nofun, by decide⟩ 0 {} 4
        (forwardVec ⟨2, [], .glm, true, 1, nofun, by decide⟩ (fun _ => .ok) 0 {} 4) ∧
      ¬Agrees ⟨2, [], .int, true, 1, nofun, by decide⟩ 0 {} 4
        (forwardVec ⟨2, [], .int, true, 1, nofun, by decide⟩
          (fun call => if call = 0 then .invalid else .ok) 0 {} 4) :=
  ⟨fun agrees => absurd (agrees.same rfl _ mem_cons_self 1 1 rfl).1 (by decide),
    fun agrees => absurd (agrees.stored rfl) (by decide)⟩

end Mnn.Llm.ChunkedPrefill
