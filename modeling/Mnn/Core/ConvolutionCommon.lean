import Mnn.Core.IDSTDense
import Mnn.Foundation.Rounding

/-!
# Convolutions with quantised weights

`encode` stores the codes of the weights, and the scales that they have; `load`
makes them numbers again.  Numbers are exact, and a scale that is stored in
fewer bits is stored as it is.  There is no search for a sparse form, and the
parameters are in the operation, not in a file of their own.
-/

variable {samples blob file rest buffer : List Byte} {decoded : Decoded} {mode : LoadMode}
  {dataCnt bits : Nat}

namespace Mnn.Core.IDST

open Mnn.Foundation.BitFields Mnn.Foundation.Rounding
open List
open Option

variable {K : Type} [Field K] [LinearOrder K] [IsStrictOrderedRing K] [FloorRing K]

instance million_atLeastTwo : Nat.AtLeastTwo 1000000 := ⟨by decide⟩

/-- The operations of an ordered field. -/
def exactOps (K : Type) [Field K] [LinearOrder K] [IsStrictOrderedRing K]
    [FloorRing K] : FloatOps K where
  zero := 0
  sub := (· - ·)
  div := (· / ·)
  round quotient offset := nearest quotient + offset
  isScale alpha := decide (alpha > 1 / 1000000)

/-- What `encode` sets; its type is one. -/
structure IDSTQuanT (K : Type) where
  buffer : List Byte
  alpha : List K
  aMaxOrBits : Nat
  shapeInt32 : Bool
  quantScale : K
  readType : Nat
  aMin : Int

/-- `encode`; there is no result if a number is not an `int`. -/
def encode (weight : Nat → K) (scale : List K) (kernelSize kernelNum : Nat)
    (asymmetricQuantFlag : Bool) (clampMin : Int) (bits : Nat) :
    Option (IDSTQuanT K) :=
  if areInts : kernelSize < 2 ^ 31 ∧ kernelNum < 2 ^ 31 then
    (WriteCQBlobs (exactOps K) ⟨kernelSize, kernelNum, areInts.1, areInts.2⟩
        ⟨weight, fun i => scale.getD i 0, asymmetricQuantFlag⟩ bits).map
      fun (buffer, shapeInt32) =>
        { buffer := buffer
          alpha := scale
          aMaxOrBits := bits
          shapeInt32 := shapeInt32
          quantScale := 1
          readType := if asymmetricQuantFlag then kernelNum else 0
          aMin := if asymmetricQuantFlag then clampMin else 0 }
  else
    none

/-- `forceFloat` is set; nothing else is. -/
def LoadMode.float : LoadMode where
  forceQuant := false
  forceFloat := true
  has_scaleInt := false
  hasOutput := false

namespace IDSTQuanT

variable (quan : IDSTQuanT K)

def asymmetric : Bool := quan.readType != 0

def outputCount : Nat :=
  if quan.asymmetric then quan.alpha.length / 2 else quan.alpha.length

/-- The scales; the least code is moved into the offsets. -/
def alphaOf (i : Nat) : K :=
  let clampMin : Int := if quan.aMin = 0 then -128 else quan.aMin
  let alpha :=
    if quan.asymmetric ∧ clampMin < 0 ∧ i % 2 = 0 ∧ i / 2 < quan.outputCount then
      quan.alpha.getD i 0 - clampMin * quan.alpha.getD (i + 1) 0
    else
      quan.alpha.getD i 0
  if quan.quantScale ≠ 1 then alpha * quan.quantScale else alpha

/-- The weight of an output. -/
def backToFloat (o : Nat) (srcW : Int) : K :=
  if quan.asymmetric then
    srcW * quan.alphaOf (2 * o + 1) + quan.alphaOf (2 * o)
  else
    srcW * quan.alphaOf o + 0

/--
`ConvolutionCommon::load` with `forceFloat`.  A weight that is not set, because
the outputs do not share the weights equally, has no value.
-/
def load : Option (List K) := (ReadQuanData_c LoadMode.float quan.shapeInt32 {} quan.buffer).bind
    fun (decoded, _) =>
      decoded.blob.bind fun buffer =>
        let weightLength := decoded.len
        if quan.outputCount = 0 ∨ weightLength % quan.outputCount ≠ 0 then
          none
        else
          let partWeightSize := weightLength / quan.outputCount
          some ((List.range quan.outputCount).flatMap fun o =>
              (List.range partWeightSize).map fun v =>
                quan.backToFloat o (buffer.getD (o * partWeightSize + v) 0).toInt)

end IDSTQuanT

/-! ## What is decoded for floats -/

theorem readSplit_float {result : Int8Common} {linear : Bool}
    {idxBitsCnt : Nat} {idxBuf : List Byte} (notForced : mode.forceQuant = false)
    (isDecoded :
      readSplit mode result linear samples idxBitsCnt dataCnt idxBuf =
        some decoded) (isBlob : decoded.blob = some blob) :
    decoded.len = dataCnt ∧ decoded.result.canUseInt4 = result.canUseInt4 := by
  unfold readSplit at isDecoded
  rcases map_eq_some_iff.mp isDecoded with ⟨idxBytes, -, rfl⟩
  simp only [notForced, Bool.and_false, Bool.false_eq_true, if_false] at isBlob ⊢
  split at isBlob
  · nomatch isBlob
  · rename_i succeeds
    rw [if_neg succeeds]
    exact ⟨rfl, rfl⟩

theorem length_of_read {count : Nat} {bytes : List Byte}
    (isRead : read count file = some (bytes, rest)) : bytes.length = count := by
  unfold read at isRead
  split at isRead
  · rename_i enough
    cases isRead
    rw [length_take, min_eq_left enough]
  · nomatch isRead

theorem readIndex_float {result : Int8Common} (notForced : mode.forceQuant = false)
    (isDecoded : readIndex mode result samples dataCnt file = some (decoded, rest))
    (isBlob : decoded.blob = some blob) :
    decoded.len = dataCnt ∧ decoded.result.canUseInt4 = result.canUseInt4 := by
  unfold readIndex at isDecoded
  rcases bind_eq_some_iff.mp isDecoded with
    ⟨⟨idxBuf, behind⟩, isRead, isDecoded⟩
  simp only [notForced, Bool.not_false, Bool.true_and] at isDecoded
  have sameCodes (linear : Bool) (bits : Nat) :
      (if linear = true then { result with originBits := bits }
        else result).canUseInt4 = result.canUseInt4 := by
    cases linear with
    | false => rfl
    | true => rfl
  split at isDecoded
  · rename_i isByte
    split at isDecoded
    · cases isDecoded
      exact ⟨rfl, sameCodes _ _⟩
    · rename_i notFour
      cases isDecoded
      refine ⟨?_, sameCodes _ _⟩
      rw [Bool.and_eq_true, Bool.or_eq_true, beq_iff_eq, beq_iff_eq] at isByte
      rw [beq_iff_eq] at notFour
      have eight := isByte.2.resolve_left notFour
      rw [eight, bytesOf] at isRead
      show idxBuf.length = dataCnt
      rw [length_of_read isRead]
      omega
  · rcases map_eq_some_iff.mp isDecoded with ⟨decoded', isSplit, isPair⟩
    cases isPair
    have known := readSplit_float notForced isSplit isBlob
    exact ⟨known.1, known.2.trans (sameCodes _ _)⟩

/-- Behind a shape, as many numbers as the shape has are decoded. -/
theorem ReadQuanData_c_float {dims : List Nat}
    (notForced : mode.forceQuant = false) (fewDims : dims.length ≤ 4)
    (areInts : ∀ dim ∈ dims, dim < 2 ^ 31)
    (isDecoded : ReadQuanData_c mode (WriteBlobDim dims).2 {} ((WriteBlobDim dims).1 ++ file) =
        some (decoded, rest)) (isBlob : decoded.blob = some blob) :
    decoded.len = dims.prod ∧ decoded.result.canUseInt4 = false := by
  unfold ReadQuanData_c at isDecoded
  rw [ReadBlobDim_WriteBlobDim fewDims areInts, bind_some] at isDecoded
  by_cases noShape : dims.isEmpty = true
  · simp only [noShape, if_true] at isDecoded
    cases isDecoded
    nomatch isBlob
  · simp only [noShape] at isDecoded
    rcases bind_eq_some_iff.mp isDecoded with ⟨_, -, isDecoded⟩
    rcases bind_eq_some_iff.mp isDecoded with ⟨_, -, isDecoded⟩
    exact readIndex_float notForced isDecoded isBlob

/-- Values are written behind their shape, if their number is an `int`. -/
theorem exists_rest_of_writeValues {kernel : Kernel} {values : List Int}
    {shapeInt32 : Bool} (positive : 1 ≤ bits) (small : bits ≤ 8)
    (isWritten : writeValues kernel bits values = some (buffer, shapeInt32)) :
    kernel.area * kernel.channel < 2 ^ 31 ∧ ∃ rest,
        buffer = (WriteBlobDim [kernel.channel, kernel.area]).1 ++ rest ∧
          shapeInt32 = (WriteBlobDim [kernel.channel, kernel.area]).2 := by
  have fewBits : ¬bits > 8 := not_lt.mpr small
  unfold writeValues at isWritten
  simp only [needBits_weightSet positive, if_neg fewBits] at isWritten
  rcases bind_eq_some_iff.mp isWritten with ⟨count, isCount, isWritten⟩
  rcases map_eq_some_iff.mp isWritten with ⟨buf, -, isPair⟩
  cases isPair
  constructor
  · by_contra tooLarge
    rw [Kernel.weightSize, if_neg tooLarge] at isCount
    nomatch isCount
  · exact ⟨_, append_assoc _ _ _, rfl⟩

theorem ReadQuanData_c_writeValues {kernel : Kernel} {values : List Int} {shapeInt32 : Bool}
    (positive : 1 ≤ bits) (small : bits ≤ 8)
    (isWritten : writeValues kernel bits values = some (buffer, shapeInt32))
    (isDecoded :
      ReadQuanData_c LoadMode.float shapeInt32 {} buffer =
        some (decoded, rest)) (isBlob : decoded.blob = some blob) :
    decoded.len = kernel.area * kernel.channel ∧ decoded.result.canUseInt4 = false := by
  rcases exists_rest_of_writeValues positive small isWritten with
    ⟨-, behind, rfl, rfl⟩
  have areInts : ∀ dim ∈ [kernel.channel, kernel.area], dim < 2 ^ 31 := by
    intro dim isIn
    rcases mem_pair.mp isIn with rfl | rfl
    · exact kernel.channel_lt
    · exact kernel.area_lt
  have fewDims : [kernel.channel, kernel.area].length ≤ 4 :=
    show 2 ≤ 4 by decide
  have known := ReadQuanData_c_float rfl fewDims areInts isDecoded isBlob
  refine ⟨known.1.trans ?_, known.2⟩
  rw [prod_pair, mul_comm]

/-! ## What is loaded -/

/-- The numbers that the outputs share. -/
def IDSTQuanT.floats (quan : IDSTQuanT K) (partWeightSize : Nat) (src : Nat → Int) : List K :=
  (List.range quan.outputCount).flatMap fun o =>
    (List.range partWeightSize).map fun v =>
      quan.backToFloat o (src (o * partWeightSize + v))

omit [IsStrictOrderedRing K] [FloorRing K] in
theorem IDSTQuanT.floats_eq (quan : IDSTQuanT K) (partWeightSize : Nat) (src : Nat → Int) :
    quan.floats partWeightSize src = (List.range (partWeightSize * quan.outputCount)).map fun p =>
        quan.backToFloat (p / partWeightSize) (src p) :=
  flatMap_rows partWeightSize quan.outputCount fun o p =>
    quan.backToFloat o (src p)

omit [IsStrictOrderedRing K] [FloorRing K] in
theorem IDSTQuanT.length_floats (quan : IDSTQuanT K) (partWeightSize : Nat) (src : Nat → Int) :
    (quan.floats partWeightSize src).length = partWeightSize * quan.outputCount := by
  rw [floats_eq, length_map, length_range]

omit [IsStrictOrderedRing K] [FloorRing K] in
theorem IDSTQuanT.load_eq_some_iff {quan : IDSTQuanT K} {loaded : List K} :
    quan.load = some loaded ↔ ∃ decoded rest blob,
        ReadQuanData_c LoadMode.float quan.shapeInt32 {} quan.buffer =
            some (decoded, rest) ∧
          decoded.blob = some blob ∧ quan.outputCount ≠ 0 ∧
          decoded.len % quan.outputCount = 0 ∧
          quan.floats (decoded.len / quan.outputCount) (fun i => (blob.getD i 0).toInt) =
            loaded := by
  unfold load
  constructor
  · intro isLoaded
    rcases bind_eq_some_iff.mp isLoaded with
      ⟨⟨decoded, rest⟩, isDecoded, isLoaded⟩
    rcases bind_eq_some_iff.mp isLoaded with ⟨blob, isBlob, isLoaded⟩
    simp only at isLoaded
    split at isLoaded
    · nomatch isLoaded
    · rename_i shared
      rw [not_or, not_not] at shared
      exact ⟨decoded, rest, blob, isDecoded, isBlob, shared.1, shared.2, some.inj isLoaded⟩
  · rintro ⟨decoded, rest, blob, isDecoded, isBlob, someOutput, shared, rfl⟩
    rw [isDecoded, bind_some]
    show decoded.blob.bind _ = _
    rw [isBlob, bind_some]
    exact if_neg (not_or.mpr ⟨someOutput, not_not.mpr shared⟩)

section Load

variable {weight : Nat → K} {scale : List K} {kernelSize kernelNum : Nat}
  {asymmetricQuantFlag : Bool} {clampMin : Int} {bits : Nat}
  {quan : IDSTQuanT K} {loaded : List K}

theorem encode_eq_some_iff :
    encode weight scale kernelSize kernelNum asymmetricQuantFlag clampMin bits =
        some quan ↔
      ∃ (area_lt : kernelSize < 2 ^ 31) (channel_lt : kernelNum < 2 ^ 31), ∃ buffer shapeInt32,
          WriteCQBlobs (exactOps K) ⟨kernelSize, kernelNum, area_lt, channel_lt⟩
              ⟨weight, fun i => scale.getD i 0, asymmetricQuantFlag⟩ bits =
            some (buffer, shapeInt32) ∧
          IDSTQuanT.mk buffer scale bits shapeInt32 1 (if asymmetricQuantFlag then kernelNum else 0)
              (if asymmetricQuantFlag then clampMin else 0) =
            quan := by
  unfold encode
  constructor
  · intro isEncoded
    split at isEncoded
    · rename_i areInts
      rcases map_eq_some_iff.mp isEncoded with
        ⟨⟨buffer, shapeInt32⟩, isWritten, isQuan⟩
      exact ⟨areInts.1, areInts.2, buffer, shapeInt32, isWritten, isQuan⟩
    · nomatch isEncoded
  · rintro ⟨area_lt, channel_lt, buffer, shapeInt32, isWritten, rfl⟩
    rw [dif_pos ⟨area_lt, channel_lt⟩, isWritten]
    rfl

theorem length_of_load_encode (positive : 1 ≤ bits) (small : bits ≤ 8) (isEncoded :
      encode weight scale kernelSize kernelNum asymmetricQuantFlag clampMin bits =
        some quan) (isLoaded : quan.load = some loaded) :
    loaded.length = kernelSize * kernelNum ∧ loaded.length < 2 ^ 31 := by
  rcases encode_eq_some_iff.mp isEncoded with
    ⟨area_lt, channel_lt, buffer, shapeInt32, isWritten, rfl⟩
  rcases IDSTQuanT.load_eq_some_iff.mp isLoaded with
    ⟨decoded, rest, blob, isDecoded, isBlob, -, shared, rfl⟩
  have isLen := (ReadQuanData_c_writeValues positive small isWritten isDecoded isBlob).1
  have isInt := (exists_rest_of_writeValues positive small isWritten).1
  rw [IDSTQuanT.length_floats, Nat.div_mul_cancel (Nat.dvd_of_mod_eq_zero shared), isLen]
  exact ⟨rfl, isInt⟩

/-- The code of a weight. -/
def codeAt (weight : Nat → K) (scale : List K) (asymmetricQuantFlag : Bool)
    (bits kernelSize i : Nat) : Int :=
  FloatTensor.quantise (exactOps K)
    ⟨weight, fun i => scale.getD i 0, asymmetricQuantFlag⟩ bits (clamp bits)
    (i / kernelSize) (weight i)

theorem exists_decoded (positive : 1 ≤ bits) (small : bits ≤ 8) (area_lt : kernelSize < 2 ^ 31)
    (channel_lt : kernelNum < 2 ^ 31) (isInt : kernelSize * kernelNum < 2 ^ 31) :
    ∃ buffer shapeInt32 decoded blob,
      WriteCQBlobs (exactOps K) ⟨kernelSize, kernelNum, area_lt, channel_lt⟩
            ⟨weight, fun i => scale.getD i 0, asymmetricQuantFlag⟩ bits =
          some (buffer, shapeInt32) ∧
        ReadQuanData_c LoadMode.float shapeInt32 {} buffer =
            some (decoded, []) ∧
          decoded.blob = some blob ∧ decoded.len = kernelSize * kernelNum ∧
          ∀ i < kernelSize * kernelNum, (blob.getD i 0).toInt =
              codeAt weight scale asymmetricQuantFlag bits kernelSize i := by
  rcases @WriteCQBlobs_roundTrips ⟨kernelSize, kernelNum, area_lt, channel_lt⟩ bits K (exactOps K)
        ⟨weight, fun i => scale.getD i 0, asymmetricQuantFlag⟩ positive small isInt with
    ⟨buffer, shapeInt32, isWritten, comesBack⟩
  rcases comesBack LoadMode.float [] with
    ⟨decoded, weights, isDecoded, isWeights, isTaken⟩
  rw [append_nil] at isDecoded
  rcases map_eq_some_iff.mp isWeights with ⟨blob, isBlob, areWeights⟩
  rcases ReadQuanData_c_writeValues positive small isWritten isDecoded isBlob
    with ⟨isLen, noInt4⟩
  refine ⟨buffer, shapeInt32, decoded, blob, isWritten, isDecoded, isBlob, isLen, ?_⟩
  intro i less
  have isCode := congrArg (fun list => list[i]?) isTaken
  rw [denseValues, length_map, length_range] at isCode
  simp only [noInt4, Bool.false_eq_true, if_false] at areWeights
  simp only [List.getElem?_take, List.getElem?_map, if_pos less, ← areWeights,
    List.getElem?_range less, isLen, map_some] at isCode
  rcases map_eq_some_iff.mp isCode with ⟨code, isAt, isSame⟩
  rw [getD_eq_getElem?_getD, isAt]
  exact isSame

/-- Each weight is loaded from its code and the scales of its row. -/
theorem load_encode (positive : 1 ≤ bits) (small : bits ≤ 8) (someRow : 0 < kernelNum)
    (someWeight : 0 < kernelSize) (isInt : kernelSize * kernelNum < 2 ^ 31)
    (hasScales : scale.length = if asymmetricQuantFlag then 2 * kernelNum else kernelNum) :
    ∃ quan loaded, encode weight scale kernelSize kernelNum asymmetricQuantFlag clampMin bits =
          some quan ∧
        quan.load = some loaded ∧ loaded.length = kernelSize * kernelNum ∧
          ∀ o < kernelNum, ∀ v < kernelSize, loaded[o * kernelSize + v]? =
              some (quan.backToFloat o (codeAt weight scale asymmetricQuantFlag bits kernelSize
                    (o * kernelSize + v))) := by
  have area_lt : kernelSize < 2 ^ 31 := (Nat.le_mul_of_pos_right _ someRow).trans_lt isInt
  have channel_lt : kernelNum < 2 ^ 31 := (Nat.le_mul_of_pos_left _ someWeight).trans_lt isInt
  rcases @exists_decoded K _ _ _ _ weight scale kernelSize kernelNum
        asymmetricQuantFlag bits positive small area_lt channel_lt isInt with
    ⟨buffer, shapeInt32, decoded, blob, isWritten, isDecoded, isBlob, isLen, areCodes⟩
  obtain ⟨quan, isQuan⟩ : ∃ quan, IDSTQuanT.mk buffer scale bits shapeInt32 1
            (if asymmetricQuantFlag then kernelNum else 0)
            (if asymmetricQuantFlag then clampMin else 0) =
          quan :=
    ⟨_, rfl⟩
  have outputs : quan.outputCount = kernelNum := by
    subst isQuan
    unfold IDSTQuanT.outputCount IDSTQuanT.asymmetric
    cases asymmetricQuantFlag with
    | true =>
      have notZero : (kernelNum != 0) = true := bne_iff_ne.mpr (ne_of_gt someRow)
      simp only [if_true, notZero, hasScales]
      exact Nat.mul_div_cancel_left kernelNum Nat.two_pos
    | false => exact hasScales
  have part : kernelSize * kernelNum / kernelNum = kernelSize := Nat.mul_div_cancel _ someRow
  refine ⟨quan, quan.floats kernelSize fun i => (blob.getD i 0).toInt, encode_eq_some_iff.mpr
        ⟨area_lt, channel_lt, buffer, shapeInt32, isWritten, isQuan⟩,
      IDSTQuanT.load_eq_some_iff.mpr ⟨decoded, [], blob, ?_, isBlob, ?_, ?_, ?_⟩, ?_, ?_⟩
  · rw [← isQuan]
    exact isDecoded
  · rw [outputs]
    exact ne_of_gt someRow
  · rw [isLen, outputs]
    exact Nat.mul_mod_left _ _
  · rw [isLen, outputs, part]
  · rw [IDSTQuanT.length_floats, outputs]
  · intro o isRow v inRow
    have less : o * kernelSize + v < kernelSize * kernelNum := by
      calc
        o * kernelSize + v < o * kernelSize + kernelSize := Nat.add_lt_add_left inRow _
        _ = (o + 1) * kernelSize := (Nat.succ_mul o kernelSize).symm
        _ ≤ kernelNum * kernelSize := Nat.mul_le_mul_right _ isRow
        _ = kernelSize * kernelNum := mul_comm _ _
    have row : (o * kernelSize + v) / kernelSize = o := by
      rw [mul_comm, Nat.mul_add_div someWeight, Nat.div_eq_of_lt inRow, add_zero]
    rw [IDSTQuanT.floats_eq, List.getElem?_map, outputs,
      List.getElem?_range less, map_some, row, areCodes _ less]

theorem backToFloat_encode (isEncoded :
      encode weight scale kernelSize kernelNum asymmetricQuantFlag clampMin bits =
        some quan)
    (hasScales : scale.length = if asymmetricQuantFlag then 2 * kernelNum else kernelNum)
    (isLeast : clampMin < 0) {o : Nat} (isRow : o < kernelNum) (code : Int) :
    quan.backToFloat o code =
      if asymmetricQuantFlag then
        code * scale.getD (2 * o + 1) 0 +
          (scale.getD (2 * o) 0 - clampMin * scale.getD (2 * o + 1) 0)
      else
        code * scale.getD o 0 := by
  rcases encode_eq_some_iff.mp isEncoded with
    ⟨area_lt, channel_lt, buffer, shapeInt32, -, rfl⟩
  have noFactor : ¬(1 : K) ≠ 1 := not_not.mpr rfl
  cases asymmetricQuantFlag with
  | true =>
    have someRow : (kernelNum != 0) = true :=
      bne_iff_ne.mpr (ne_of_gt (Nat.zero_lt_of_lt isRow))
    have hasRow : 2 * o / 2 < scale.length / 2 := by
      rw [hasScales, if_pos rfl]
      omega
    have isOdd : ¬(2 * o + 1) % 2 = 0 := by omega
    have isEven : 2 * o % 2 = 0 := by omega
    simp only [IDSTQuanT.backToFloat, IDSTQuanT.alphaOf, IDSTQuanT.asymmetric,
      IDSTQuanT.outputCount, if_true, someRow, noFactor, if_false,
      if_neg isLeast.ne, isLeast, isOdd, isEven, hasRow, true_and, false_and,
      and_false]
  | false =>
    simp only [IDSTQuanT.backToFloat, IDSTQuanT.alphaOf, IDSTQuanT.asymmetric,
      bne_self_eq_false, Bool.false_eq_true, if_false, false_and, noFactor,
      add_zero]

end Load

end Mnn.Core.IDST
