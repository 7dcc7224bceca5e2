import Mnn.Core.IDSTDecoder

/-!
# Dense weights come back

However the loader decodes a dense buffer, the weights that it denotes are the
values that were written, and nothing else is consumed.  The encoder fails
exactly if the number of weights is not an `int`.
-/

variable {values : List Int} {kernel : Kernel} {bits : Nat}

namespace Mnn.Core.IDST

open Mnn.Foundation.BitFields
open List
open Nat

/-- The weights that a byte of two weights denotes. -/
def unpacked (val : Byte) : List Int := [(val.toNat / 16 : Nat) - 8, (val.toNat % 16 : Nat) - 8]

/-- The weights that are denoted; an odd number of packed weights is filled. -/
def Decoded.weights (decoded : Decoded) : Option (List Int) := decoded.blob.map fun blob =>
    let bytes := blob.take decoded.len
    if decoded.result.canUseInt4 then
      bytes.flatMap unpacked
    else
      bytes.map BitVec.toInt

/-- In whichever way it is loaded, what was written denotes these values. -/
def RoundTrips (written : Option (List Byte × Bool)) (values : List Int) :
    Prop :=
  ∃ bytes shapeInt32, written = some (bytes, shapeInt32) ∧ ∀ (mode : LoadMode) (file : List Byte),
      ∃ decoded weights, ReadQuanData_c mode shapeInt32 {} (bytes ++ file) =
            some (decoded, file) ∧
          decoded.weights = some weights ∧ weights.take values.length = values

/-! ## Two numbers in a byte -/

/-- The numbers of four bits in a buffer. -/
def nibbles (buf : List Byte) : List Byte :=
  buf.flatMap fun (val : Byte) => [val >>> 4, val &&& mask 4]

variable (buf : List Byte)

@[simp]
theorem length_nibbles : (nibbles buf).length = 2 * buf.length := by
  induction buf with
  | nil => rfl
  | cons val buf ih =>
    rw [nibbles, flatMap_cons, length_append]
    show 2 + (nibbles buf).length = _
    rw [ih, length_cons, mul_succ, add_comm]

theorem getElem?_nibbles (k : Nat) :
    (nibbles buf)[2 * k]? = buf[k]?.map (fun (val : Byte) => val >>> 4) ∧
      (nibbles buf)[2 * k + 1]? = buf[k]?.map (fun (val : Byte) => val &&& mask 4) := by
  induction buf generalizing k with
  | nil => exact ⟨rfl, rfl⟩
  | cons val buf ih =>
    cases k with
    | zero => exact ⟨rfl, rfl⟩
    | succ k => exact ih k

theorem packs_nibbles : Packs 4 (nibbles buf) buf := by
  constructor
  · rw [length_nibbles]
    omega
  · intro i value isValue
    rcases even_or_odd' i with ⟨k, rfl | rfl⟩
    · rw [(getElem?_nibbles buf k).1, Option.map_eq_some_iff] at isValue
      rcases isValue with ⟨val, isVal, rfl⟩
      rcases List.getElem?_eq_some_iff.mp isVal with ⟨inBuffer, rfl⟩
      exact fieldAt_high inBuffer
    · rw [(getElem?_nibbles buf k).2, Option.map_eq_some_iff] at isValue
      rcases isValue with ⟨val, isVal, rfl⟩
      rcases List.getElem?_eq_some_iff.mp isVal with ⟨inBuffer, rfl⟩
      exact fieldAt_low inBuffer

theorem packs_bytes : Packs 8 buf buf := by
  refine ⟨le_of_eq (mul_comm ..), ?_⟩
  intro i value isValue
  rcases List.getElem?_eq_some_iff.mp isValue with ⟨inBuffer, rfl⟩
  exact fieldAt_byte inBuffer

theorem Packs.take {iNeedBits : Nat} {arr buf : List Byte} (packs : Packs iNeedBits arr buf)
    (count : Nat) : Packs iNeedBits (arr.take count) buf := by
  constructor
  · refine le_trans (mul_le_mul_right _ ?_) packs.1
    rw [length_take]
    exact min_le_right ..
  · intro i value isValue
    rw [getElem?_take] at isValue
    split at isValue
    · exact packs.2 i value isValue
    · nomatch isValue

theorem Packs.eq_nibbles {codes buf : List Byte} (packs : Packs 4 codes buf) :
    (nibbles buf).take codes.length = codes := by
  apply packs.unique ((packs_nibbles buf).take _)
  have room := packs.1
  rw [length_take, length_nibbles]
  omega

theorem ofNat_div (val : Byte) : BitVec.ofNat 8 (val.toNat / 16) = val >>> 4 := by
  apply BitVec.eq_of_toNat_eq
  have less : val.toNat < 256 := val.isLt
  rw [BitVec.toNat_ofNat, BitVec.toNat_ushiftRight, shiftRight_eq_div_pow]
  omega

theorem ofNat_mod (val : Byte) : BitVec.ofNat 8 (val.toNat % 16) = val &&& mask 4 := by
  apply BitVec.eq_of_toNat_eq
  have isMask : (mask 4).toNat = 2 ^ 4 - 1 := by decide
  rw [BitVec.toNat_ofNat, BitVec.toNat_and, isMask, and_two_pow_sub_one_eq_mod]
  omega

theorem flatMap_unpacked :
    buf.flatMap unpacked = (nibbles buf).map fun code => (code.toNat : Int) - 8 := by
  rw [nibbles, map_flatMap]
  refine congrArg (List.flatMap · buf) (funext fun val => ?_)
  have high : (val >>> 4).toNat = val.toNat / 16 := by
    rw [BitVec.toNat_ushiftRight, shiftRight_eq_div_pow]
  have low : (val &&& mask 4).toNat = val.toNat % 16 := by
    rw [← ofNat_mod, BitVec.toNat_ofNat]
    omega
  show _ = [((val >>> 4).toNat : Int) - 8, ((val &&& mask 4).toNat : Int) - 8]
  rw [high, low]
  rfl

/-! ## The decoders -/

section Decoders

variable {bits : Nat} (positive : 1 ≤ bits) (small : bits ≤ 8)

/-- The values and their codes. -/
def codes (bits : Nat) (values : List Int) : List Byte := values.map (codeOf bits)

@[simp]
theorem length_codes (values : List Int) : (codes bits values).length = values.length :=
  length_map ..

include positive small in
theorem map_codes_sub (inRange : ∀ value ∈ values, InRange bits value) :
    ((codes bits values).map (· - BitVec.ofNat 8 (2 ^ (bits - 1)))).map BitVec.toInt = values := by
  rw [codes, map_map, map_map]
  refine (map_congr_left ?_).trans (map_id values)
  intro value isIn
  exact toInt_codeOf_sub positive small (inRange value isIn)

include small in
theorem map_codes_toNat (inRange : ∀ value ∈ values, InRange bits value) :
    (codes bits values).map (fun code => (code.toNat : Int) - (2 ^ (bits - 1) : Nat)) =
      values := by
  rw [codes, map_map]
  refine (map_congr_left ?_).trans (map_id values)
  intro value isIn
  show ((codeOf bits value).toNat : Int) - _ = value
  rw [toNat_codeOf small (inRange value isIn)]
  exact Int.add_sub_cancel ..

include positive small in
theorem readSplit_codes (mode : LoadMode) (result : Int8Common)
    {buf : List Byte} (inRange : ∀ value ∈ values, InRange bits value)
    (packs : Packs bits (codes bits values) buf)
    (fresh : result.canUseInt4 = false) (notFour : result.originBits ≠ 4) :
    ∃ decoded, readSplit mode result true (linearSamples bits) bits values.length buf =
          some decoded ∧
        decoded.weights = some values := by
  have isSplit := packs.split positive small
  rw [length_codes] at isSplit
  have isTaken : (padded values.length ((codes bits values).map
            (· - BitVec.ofNat 8 (2 ^ (bits - 1))))).take values.length =
        (codes bits values).map (· - BitVec.ofNat 8 (2 ^ (bits - 1))) := by
    rw [padded]
    apply take_left'
    rw [length_map, length_codes]
  have isValues := map_codes_sub positive small inRange
  unfold readSplit
  simp only [isSplit, Option.map_some, if_true, Bool.true_or, Bool.not_true,
    Bool.false_and, Bool.false_eq_true, if_false, beq_iff_eq, Bool.and_eq_true,
    notFour, false_and]
  split
  · refine ⟨_, rfl, ?_⟩
    simp only [Decoded.weights, Option.map_some, fresh, Bool.false_eq_true,
      if_false, isTaken, isValues]
  · split
    · refine ⟨_, rfl, ?_⟩
      simp only [Decoded.weights, Option.map_some, fresh, Bool.false_eq_true,
        if_false, isTaken, isValues]
    · refine ⟨_, rfl, ?_⟩
      simp only [Decoded.weights, Option.map_some, fresh, Bool.false_eq_true,
        if_false, isTaken, isValues]

end Decoders

theorem readIndex_codes (positive : 1 ≤ bits) (small : bits ≤ 8)
    (mode : LoadMode) (result : Int8Common)
    {buf : List Byte} (inRange : ∀ value ∈ values, InRange bits value)
    (packs : Packs bits (codes bits values) buf)
    (hasLength : buf.length = bytesOf (bits * values.length))
    (fresh : result.canUseInt4 = false) (file : List Byte) :
    ∃ decoded weights, readIndex mode result (linearSamples bits) values.length (buf ++ file) =
          some (decoded, file) ∧
        decoded.weights = some weights ∧
        weights.take values.length = values := by
  unfold readIndex
  simp only [atLestBitsCnt_linearSamples positive small,
    isLinearSample_linearSamples positive small, read_append hasLength,
    Option.bind_some, if_true, Bool.true_and]
  by_cases four : bits = 4
  · subst four
    have isCodes := packs.eq_nibbles
    rw [length_codes] at isCodes
    by_cases forced : mode.forceQuant = true
    · simp only [forced, Bool.not_true, Bool.false_and, beq_self_eq_true,
        Bool.true_or, if_true, Bool.false_eq_true, if_false]
      refine ⟨_, buf.flatMap unpacked, rfl, ?_, ?_⟩
      · simp only [Decoded.weights, Option.map_some, if_true, take_length]
      · rw [flatMap_unpacked, ← map_take, isCodes]
        exact map_codes_toNat small inRange
    · simp only [forced, Bool.not_false, Bool.true_and, beq_self_eq_true, Bool.true_or, if_true]
      refine ⟨_, values, rfl, ?_, take_length⟩
      have isBlob : (buf.flatMap fun val =>
            [BitVec.ofNat 8 (val.toNat / 16) - 8, BitVec.ofNat 8 (val.toNat % 16) - 8]) =
            (nibbles buf).map (· - BitVec.ofNat 8 (2 ^ (4 - 1))) := by
        rw [nibbles, map_flatMap]
        refine congrArg (List.flatMap · buf) (funext fun val => ?_)
        rw [ofNat_div, ofNat_mod]
        rfl
      simp only [Decoded.weights, Option.map_some, fresh, Bool.false_eq_true, if_false, isBlob]
      rw [← map_take, isCodes, map_codes_sub positive small inRange]
  · by_cases eight : bits = 8
    · subst eight
      have isCodes : buf = codes 8 values := by
        apply packs.unique (packs_bytes buf)
        rw [length_codes, hasLength, bytesOf]
        omega
      simp only [beq_self_eq_true, Bool.or_true, if_true,
        show ((8 : Nat) == 4) = false from rfl, Bool.and_false,
        Bool.false_eq_true, if_false]
      refine ⟨_, values, rfl, ?_, take_length⟩
      have isTaken : (buf.map (· - 128)).take buf.length = buf.map (· - 128) := by
        apply take_of_length_le
        rw [length_map]
      simp only [Decoded.weights, Option.map_some, fresh, Bool.false_eq_true, if_false, isTaken]
      rw [isCodes]
      exact congrArg some (map_codes_sub positive small inRange)
    · have other : (bits == 4 || bits == 8) = false := by
        rw [Bool.or_eq_false_iff, beq_eq_false_iff_ne, beq_eq_false_iff_ne]
        exact ⟨four, eight⟩
      simp only [other, Bool.false_eq_true, if_false]
      rcases readSplit_codes positive small mode
            { result with originBits := bits } inRange packs fresh four with
        ⟨decoded, isDecoded, isWeights⟩
      refine ⟨decoded, values, ?_, isWeights, take_length⟩
      rw [isDecoded]
      rfl

/-! ## The round trip -/

theorem Kernel.weightSize_of_lt (isInt : kernel.area * kernel.channel < 2 ^ 31) :
    kernel.weightSize = some (kernel.area * kernel.channel) :=
  if_pos isInt

/-- Values are written in front of what is behind them, and come back. -/
theorem writeValues_roundTrips (positive : 1 ≤ bits) (small : bits ≤ 8)
    (inRange : ∀ value ∈ values, InRange bits value)
    (hasLength : values.length = kernel.area * kernel.channel)
    (isInt : kernel.area * kernel.channel < 2 ^ 31) :
    RoundTrips (writeValues kernel bits values) values := by
  rcases @FillBuffer_packs (codes bits values) bits positive small (bytesOf (bits * values.length))
        (by rw [length_codes, bytesOf, mul_comm]; omega)
        (by
          intro code isIn
          rw [codes, mem_map] at isIn
          rcases isIn with ⟨value, isValue, rfl⟩
          exact codeOf_lt positive small (inRange value isValue)) with
    ⟨buf, isBuf, bufLength, packs⟩
  have dims : ∀ dim ∈ [kernel.channel, kernel.area], dim < 2 ^ 31 := by
    intro dim isIn
    rcases mem_pair.mp isIn with rfl | rfl
    · exact kernel.channel_lt
    · exact kernel.area_lt
  have fewDims : [kernel.channel, kernel.area].length ≤ 4 :=
    show 2 ≤ 4 by decide
  have fewBits : ¬bits > 8 := not_lt.mpr small
  refine ⟨(WriteBlobDim [kernel.channel, kernel.area]).1 ++
        BitVec.ofNat 8 (weightSet bits).length ::
          linearSamples bits ++ buf,
      (WriteBlobDim [kernel.channel, kernel.area]).2, ?_, ?_⟩
  · unfold writeValues
    simp only [needBits_weightSet positive, if_neg fewBits,
      Kernel.weightSize_of_lt isInt, Option.bind_some]
    rw [← hasLength]
    show (FillBuffer _ (codes bits values) bits).map _ = _
    rw [isBuf]
    rfl
  · intro mode file
    rcases readIndex_codes positive small mode
          { weightMap := linearSamples bits } inRange packs bufLength rfl
          file with
      ⟨decoded, weights, isDecoded, isWeights, isValues⟩
    refine ⟨decoded, weights, ?_, isWeights, isValues⟩
    unfold ReadQuanData_c
    rw [append_assoc, append_assoc, cons_append,
      ReadBlobDim_WriteBlobDim fewDims dims, Option.bind_some]
    simp only [isEmpty_cons, Bool.false_eq_true, if_false, read_one,
      Option.bind_some, sampleCnt_linearSamples positive small,
      read_append rfl, SimpleRank_linearSamples small]
    have count : [kernel.channel, kernel.area].prod = values.length := by
      rw [hasLength, mul_comm]
      exact prod_pair ..
    rw [count]
    exact isDecoded

/-- Nothing is written if the number of weights is not an `int`. -/
theorem not_roundTrips (positive : 1 ≤ bits) (small : bits ≤ 8)
    (tooLarge : ¬kernel.area * kernel.channel < 2 ^ 31) (values written : List Int) :
    ¬RoundTrips (writeValues kernel bits values) written := by
  rintro ⟨bytes, shapeInt32, isWritten, -⟩
  have noSize : kernel.weightSize = none := if_neg tooLarge
  have fewBits : ¬bits > 8 := not_lt.mpr small
  unfold writeValues at isWritten
  simp only [needBits_weightSet positive, if_neg fewBits, noSize, Option.bind_none] at isWritten
  nomatch isWritten

theorem flatMap_rows {α : Type} (area channel : Nat) (value : Nat → Nat → α) :
    ((List.range channel).flatMap fun i =>
        (List.range area).map fun j => value i (i * area + j)) =
      (List.range (area * channel)).map fun p => value (p / area) p := by
  induction channel with
  | zero => rfl
  | succ channel ih =>
    rw [range_succ, flatMap_append, ih, mul_succ,
      range_add, map_append, map_map, flatMap_singleton]
    congr 1
    apply map_congr_left
    intro j isIn
    have less := mem_range.mp isIn
    have row : (area * channel + j) / area = channel := by
      rw [mul_add_div (zero_lt_of_lt less), div_eq_of_lt less, add_zero]
    show value channel (channel * area + j) =
      value ((area * channel + j) / area) (area * channel + j)
    rw [row, mul_comm]

theorem minValue_le_maxValue (bits : Nat) : minValue bits ≤ maxValue bits := by
  have positive : 0 < 2 ^ (bits - 1) := Nat.two_pow_pos _
  unfold minValue maxValue
  omega

theorem inRange_minValue (bits : Nat) : InRange bits (minValue bits) :=
  ⟨Int.le_refl _, minValue_le_maxValue bits⟩

theorem inRange_zero (bits : Nat) : InRange bits 0 := by
  have positive : 0 < 2 ^ (bits - 1) := Nat.two_pow_pos _
  unfold InRange minValue maxValue
  omega

theorem inRange_clamp (bits : Nat) (value : Int) : InRange bits (clamp bits value) := by
  have order := minValue_le_maxValue bits
  unfold InRange clamp
  omega

theorem inRange_quantise {F : Type} (ops : FloatOps F) (tensor : FloatTensor F) (bits channel : Nat)
    (weight : F) :
    InRange bits (tensor.quantise ops bits (clamp bits) channel weight) := by
  unfold FloatTensor.quantise
  split
  · simp only
    split
    · exact inRange_clamp bits _
    · exact inRange_minValue bits
  · simp only
    split
    · exact inRange_clamp bits _
    · exact inRange_zero bits

/-- The values that `WriteCQBlobs` quantises the weights to. -/
def denseValues {F : Type} (ops : FloatOps F) (kernel : Kernel) (tensor : FloatTensor F)
    (bits : Nat) : List Int :=
  (List.range (kernel.area * kernel.channel)).map fun i =>
    tensor.quantise ops bits (clamp bits) (i / kernel.area) (tensor.weightData i)

theorem WriteCQBlobs_roundTrips {F : Type} (ops : FloatOps F) (tensor : FloatTensor F)
    (positive : 1 ≤ bits) (small : bits ≤ 8) (isInt : kernel.area * kernel.channel < 2 ^ 31) :
    RoundTrips (WriteCQBlobs ops kernel tensor bits) (denseValues ops kernel tensor bits) := by
  rw [WriteCQBlobs, flatMap_rows kernel.area kernel.channel fun i p =>
      tensor.quantise ops bits (clamp bits) i (tensor.weightData p)]
  refine writeValues_roundTrips positive small ?_ ?_ isInt
  · intro value isIn
    rcases mem_map.mp isIn with ⟨i, -, rfl⟩
    exact inRange_quantise ops tensor bits _ _
  · rw [length_map, length_range]

/--
Both encoders' buffers denote the values in their order, in whichever way they
are loaded, exactly if the number of weights is an `int`.
-/
theorem dense_roundTrips_iff
    {F : Type} (ops : FloatOps F) (kernel : Kernel) (tensor : FloatTensor F)
    (weightData : Nat → Int) {bits : Nat} (positive : 1 ≤ bits) (small : bits ≤ 8)
    (inRange : ∀ i < kernel.area * kernel.channel, InRange bits (weightData i)) :
    (RoundTrips (WriteCQBlobsInt8 kernel weightData bits)
          ((List.range (kernel.area * kernel.channel)).map weightData) ∧
        RoundTrips (WriteCQBlobs ops kernel tensor bits) (denseValues ops kernel tensor bits)) ↔
      kernel.area * kernel.channel < 2 ^ 31 := by
  rw [WriteCQBlobsInt8, flatMap_rows kernel.area kernel.channel fun _ p => weightData p]
  constructor
  · rintro ⟨roundTrips, -⟩
    by_contra tooLarge
    exact not_roundTrips positive small tooLarge _ _ roundTrips
  · intro isInt
    constructor
    · refine writeValues_roundTrips positive small ?_ ?_ isInt
      · intro value isIn
        rcases mem_map.mp isIn with ⟨i, isPlace, rfl⟩
        exact inRange i (mem_range.mp isPlace)
      · rw [length_map, length_range]
    · exact WriteCQBlobs_roundTrips ops tensor positive small isInt

/-- Integers for floats. -/
def intOps : FloatOps Int where
  zero := 0
  sub := (· - ·)
  div := (· / ·)
  round quotient offset := quotient + offset
  isScale alpha := 0 < alpha

/-- Six weights of three bits. -/
theorem dense_roundTrips_threeBits : (RoundTrips (WriteCQBlobsInt8 ⟨3, 2, by decide, by decide⟩
            (fun i => (i : Int) - 4) 3)
          ((List.range 6).map fun i => (i : Int) - 4) ∧
        RoundTrips (WriteCQBlobs intOps ⟨3, 2, by decide, by decide⟩
            ⟨fun i => i, fun _ => 1, false⟩ 3)
          [0, 1, 2, 3, 3, 3]) := by
  refine (@dense_roundTrips_iff Int intOps ⟨3, 2, by decide, by decide⟩
      ⟨fun i => i, fun _ => 1, false⟩ (fun i => (i : Int) - 4) 3 (by decide)
      (by decide) ?_).mpr (by decide)
  intro i less
  have bound : i < 6 := less
  show -4 ≤ (i : Int) - 4 ∧ (i : Int) - 4 ≤ 3
  omega

/-- Two gibibytes of weights are too many. -/
theorem not_dense_roundTrips :
    ¬∀ (kernel : Kernel) (weightData : Nat → Int) (bits : Nat), 2 ≤ bits → bits ≤ 8 →
        (∀ i < kernel.area * kernel.channel, InRange bits (weightData i)) →
          RoundTrips (WriteCQBlobsInt8 kernel weightData bits)
            ((List.range (kernel.area * kernel.channel)).map weightData) := by
  intro always
  refine not_roundTrips (by decide) (by decide) ?_ _ _
      (always ⟨65536, 32768, by decide, by decide⟩ (fun _ => 0) 8 (by decide)
        (by decide) fun _ _ => inRange_zero 8)
  show ¬65536 * 32768 < 2 ^ 31
  decide

end Mnn.Core.IDST
