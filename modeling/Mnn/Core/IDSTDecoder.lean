import Mnn.Core.IDSTBits

/-!
# The decoder of quantised weights

What is read is consumed; reading over the end of the file has no result.
Memory is taken to be there when it is allocated, and the memory of the caller
to be large enough.
-/

namespace Mnn.Core.IDST

open Mnn.Foundation.BitFields
open List
open Nat

def read (count : Nat) (file : List Byte) : Option (List Byte × List Byte) :=
  if count ≤ file.length then
    some (file.take count, file.drop count)
  else
    none

/-- The numbers of so many bytes in a list of bytes. -/
def numbers (width : Nat) : Nat → List Byte → List Nat
  | 0, _ => []
  | number + 1, bytes =>
    ofBytes (bytes.take width) :: numbers width number (bytes.drop width)

/-- There is no shape if there are too many dimensions. -/
def ReadBlobDim (useInt32 : Bool) (file : List Byte) : Option (List Nat × List Byte) :=
  (read 1 file).bind fun (uSize, file) =>
    let copyLength := ofBytes uSize
    if copyLength > 4 then
      some ([], file)
    else
      let width := if useInt32 then 4 else 2
      (read (width * copyLength) file).map fun (shape, file) =>
        (numbers width copyLength shape, file)

def atLestBitsCnt (n : BitVec 32) : Nat :=
  match (List.range 32).find? fun i => (n <<< i).msb with
  | some i => 32 - i - (if (n <<< i) <<< 1 = 0 then 1 else 0)
  | none => 0

/-! ## Sorting -/

/-- The smallest value comes to the front; others are exchanged with it. -/
def rankPass (head : Byte) : List Byte → Byte × List Byte
  | [] => (head, [])
  | next :: rest =>
    if next.slt head then
      let (least, rest) := rankPass next rest
      (least, head :: rest)
    else
      let (least, rest) := rankPass head rest
      (least, next :: rest)

def rankFrom : Nat → List Byte → List Byte
  | 0, data => data
  | _, [] => []
  | cnt + 1, head :: rest =>
    let (least, rest) := rankPass head rest
    least :: rankFrom cnt rest

/-- `SimpleRank`, upwards. -/
def SimpleRank (data : List Byte) : List Byte := rankFrom data.length data

def isLinearSample (sample : List Byte) (bit : Nat) : Bool :=
  let offset : Int := (2 ^ (bit - 1) : Nat)
  let size := 2 ^ bit
  sample.length == size && sample.zipIdx.all fun (value, i) => value.toInt == (i : Int) - offset

/-! ## Dense weights -/

/-- What is known about the weights, which begins with the defaults. -/
structure Int8Common where
  weightMap : List Byte := []
  canUseInt4 : Bool := false
  canUseInt3 : Bool := false
  canUseInt2 : Bool := false
  originBits : Nat := 8

/-- The flags with which weights are loaded. -/
structure LoadMode where
  forceQuant : Bool
  forceFloat : Bool
  has_scaleInt : Bool
  /-- There is an `outputPtr`. -/
  hasOutput : Bool

def LoadMode.canSetOutputPtr (mode : LoadMode) : Bool := mode.hasOutput &&
    !(!mode.forceQuant && (mode.forceFloat || !mode.has_scaleInt))

/-- What a decoder returns, and what it sets. -/
structure Decoded where
  /-- What is written to the memory that is returned. -/
  blob : Option (List Byte)
  len : Nat
  result : Int8Common

/-- Memory for an even number of weights, which is zero at first. -/
def padded (dataCnt : Nat) (weights : List Byte) : List Byte :=
  weights ++ List.replicate ((dataCnt + 1) / 2 * 2 - weights.length) 0

/-- Two weights of four bits in each byte. -/
def packNibbles : List Byte → List Byte
  | s0 :: s1 :: rest => (((s0 + 8) <<< 4) + (s1 + 8)) :: packNibbles rest
  | _ => []

/-- The branch of `ReadQuanData_c` for other widths than four and eight bits. -/
def readSplit (mode : LoadMode) (result : Int8Common) (linear : Bool)
    (samples : List Byte) (idxBitsCnt dataCnt : Nat) (idxBuf : List Byte) :
    Option Decoded :=
  let isBlobOutput := !(result.originBits ≤ 4 && mode.forceQuant)
  let offset : Byte := BitVec.ofNat 8 (2 ^ (idxBitsCnt - 1))
  (SplitBufToArray idxBuf dataCnt idxBitsCnt).map fun idxBytes =>
    let success :=
      linear || idxBytes.all fun idx => idx.toNat < samples.length
    let weights :=
      if linear then
        idxBytes.map (· - offset)
      else
        -- The loop ends at the first index that is too large.
        (idxBytes.takeWhile fun idx => idx.toNat < samples.length).map
          fun idx => samples.getD idx.toNat 0
    if !success && !(isBlobOutput && mode.canSetOutputPtr) then
      { blob := none, len := 0, result := result }
    else
      let blob := padded dataCnt weights
      if result.originBits == 4 && mode.forceQuant then
        { blob := some (packNibbles blob)
          len := dataCnt
          result := { result with canUseInt4 := true } }
      else if result.originBits == 2 && mode.forceQuant then
        { blob := some blob
          len := dataCnt
          result := { result with canUseInt2 := true } }
      else if result.originBits == 3 && mode.forceQuant then
        { blob := some blob
          len := dataCnt
          result := { result with canUseInt3 := true } }
      else
        { blob := some blob, len := dataCnt, result := result }

/-- `ReadQuanData_c` behind the samples. -/
def readIndex (mode : LoadMode) (result : Int8Common) (samples : List Byte)
    (dataCnt : Nat) (file : List Byte) : Option (Decoded × List Byte) :=
  let idxBitsCnt :=
    max 1 (atLestBitsCnt (BitVec.ofNat 32 samples.length))
  let linear := isLinearSample samples idxBitsCnt
  (read (bytesOf (idxBitsCnt * dataCnt)) file).bind fun (idxBuf, file) =>
    let result :=
      if linear then { result with originBits := idxBitsCnt } else result
    if linear && (idxBitsCnt == 4 || idxBitsCnt == 8) then
      if !mode.forceQuant && idxBitsCnt == 4 then
        -- Back to float: each byte becomes two weights.
        let blob :=
          idxBuf.flatMap fun val =>
            [BitVec.ofNat 8 (val.toNat / 16) - 8, BitVec.ofNat 8 (val.toNat % 16) - 8]
        some ({ blob := some blob, len := dataCnt, result := result }, file)
      else if idxBitsCnt == 4 then
        let result := { result with canUseInt4 := true }
        some ({ blob := some idxBuf, len := idxBuf.length, result := result }, file)
      else
        let blob := idxBuf.map (· - 128)
        some ({ blob := some blob, len := idxBuf.length, result := result }, file)
    else
      (readSplit mode result linear samples idxBitsCnt dataCnt idxBuf).map
        fun decoded => (decoded, file)

def ReadQuanData_c (mode : LoadMode) (shapeInt32 : Bool) (result : Int8Common)
    (file : List Byte) : Option (Decoded × List Byte) :=
  (ReadBlobDim shapeInt32 file).bind fun (shape, file) =>
    if shape.isEmpty then
      some ({ blob := none, len := 0, result := result }, file)
    else
      (read 1 file).bind fun (sampleCnt, file) =>
        let sampleCnt := ofBytes sampleCnt
        let sampleCnt := if sampleCnt = 0 then 256 else sampleCnt
        (read sampleCnt file).bind fun (samples, file) =>
          let samples := SimpleRank samples
          readIndex mode { result with weightMap := samples } samples shape.prod file

/-! ## Sparse weights -/

/-- `InsertSimpleSet`, for a set of at most 256 values. -/
def InsertSimpleSet (set : List Byte) (value : Byte) : List Byte :=
  if set.length ≥ 256 then
    set
  else if value ∈ set then
    set
  else
    set ++ [value]

/-- `InsertMap`, for a map with at most 256 keys. -/
def InsertMap (map : List (Byte × Byte)) (k v : Byte) : List (Byte × Byte) :=
  if map.any fun entry => entry.1 == k then
    map.replaceF fun entry => if entry.1 == k then some (k, v) else none
  else if map.length ≥ 256 then
    map
  else
    map ++ [(k, v)]

def FindInMap (map : List (Byte × Byte)) (k : Byte) : Option Byte :=
  (map.find? fun entry => entry.1 == k).map Prod.snd

/-- The values by their ranks. -/
def rankedMap (set : List Byte) : List (Byte × Byte) :=
  set.zipIdx.foldl (fun map (value, i) => InsertMap map (BitVec.ofNat 8 i) value) []

/-- The loop that sets the weights; a weight outside of the blob has no result. -/
def setWeights (hasOutput : Bool) (map : List (Byte × Byte)) :
    List (Byte × Byte) → Nat → List Byte → Option (Option (List Byte))
  | [], _, blob => some (some blob)
  | (step, idx) :: entries, iPreIdx, blob =>
    let iPreIdx := iPreIdx + step.toNat
    let found := FindInMap map idx
    if found.isNone && !hasOutput then
      some none
    else if iPreIdx < blob.length then
      setWeights hasOutput map entries iPreIdx (blob.set iPreIdx (found.getD 0))
    else
      none

/-- What the weights without an entry are set to. -/
def fillBackground {F : Type} (ops : FloatOps F) (alpha_ptr : Nat → F) (alpha_size : Nat)
    (shape0 Size iDataNeedBits : Nat) : Option (List Byte) :=
  if alpha_size = 2 * shape0 then
    -- A division by zero has no result.
    if shape0 = 0 then
      none
    else
      let area := Size / shape0
      some ((List.range shape0).flatMap fun i =>
          let min := alpha_ptr (2 * i)
          let scale := alpha_ptr (2 * i + 1)
          let zeroQuant :=
            if ops.isScale scale then
              ops.round (ops.div (ops.sub ops.zero min) scale) (minValue iDataNeedBits)
            else
              minValue iDataNeedBits
          List.replicate area (BitVec.ofInt 8 zeroQuant))
  else
    some (List.replicate Size 0)

def ReadSparseQuanData_c {F : Type} (ops : FloatOps F) (hasOutput useInt32 : Bool)
    (alpha_ptr : Nat → F) (alpha_size : Nat) (result : Int8Common)
    (file : List Byte) : Option (Decoded × List Byte) :=
  (ReadBlobDim useInt32 file).bind fun (shape, file) =>
    -- Without a shape, `shape[0]` is not initialised.
    shape.head?.bind fun shape0 =>
      let Size := shape.prod
      (read 4 file).bind fun (nnz, file) =>
        let nnz := ofBytes nnz
        (read 1 file).bind fun (iIdxNeedBits, file) =>
          let iIdxNeedBits := ofBytes iIdxNeedBits
          (read (bytesOf (iIdxNeedBits * nnz)) file).bind fun (buf, file) =>
            (SplitBufToArray buf nnz iIdxNeedBits).bind fun arrIdx =>
              (read 1 file).bind fun (ucMapSize, file) =>
                let ucMapSize := ofBytes ucMapSize
                let ucMapSize := if ucMapSize = 0 then 256 else ucMapSize
                (read ucMapSize file).bind fun (weightMap, file) =>
                  let setWeight :=
                    SimpleRank (weightMap.foldl InsertSimpleSet [])
                  let mapWeight := rankedMap setWeight
                  let iDataNeedBits := needBits ucMapSize
                  (read (bytesOf (iDataNeedBits * nnz)) file).bind fun (buf, file) =>
                      (SplitBufToArray buf nnz iDataNeedBits).bind fun arrWeightIdx =>
                          (fillBackground ops alpha_ptr alpha_size shape0 Size
                              iDataNeedBits).bind fun blob =>
                            (setWeights hasOutput mapWeight (arrIdx.zip arrWeightIdx) 0 blob).map
                              fun blob =>
                                ({ blob := blob
                                   len := if blob.isSome then Size else 0
                                   result :=
                                     { result with weightMap := weightMap } },
                                  file)

/-!
# Headers and codes

What the encoders write in front of the bit buffers is read back, and the
values of the linear set are found by their codes.
-/

/-! ## Reading -/

theorem read_append {count : Nat} {bytes : List Byte}
    (hasLength : bytes.length = count) (file : List Byte) :
    read count (bytes ++ file) = some (bytes, file) := by
  subst hasLength
  have room : bytes.length ≤ (bytes ++ file).length := by
    rw [length_append]
    exact Nat.le_add_right ..
  rw [read, if_pos room, take_left', drop_left']
  · rfl
  · rfl

theorem read_one (byte : Byte) (file : List Byte) : read 1 (byte :: file) = some ([byte], file) :=
  @read_append 1 [byte] rfl file

@[simp]
theorem ofBytes_single (byte : Byte) : ofBytes [byte] = byte.toNat := by
  rw [ofBytes, ofBytes, mul_zero, add_zero]

theorem numbers_toBytes {width : Nat} {dims : List Nat} (fit : ∀ dim ∈ dims, dim < 256 ^ width) :
    numbers width dims.length (dims.flatMap (toBytes width)) = dims := by
  induction dims with
  | nil => rfl
  | cons dim dims ih =>
    rw [length_cons, numbers, flatMap_cons,
      take_left' (length_toBytes ..), drop_left' (length_toBytes ..),
      ofBytes_toBytes (fit dim mem_cons_self),
      ih fun other isIn => fit other (mem_cons_of_mem _ isIn)]

theorem length_flatMap_toBytes (width : Nat) (dims : List Nat) :
    (dims.flatMap (toBytes width)).length = width * dims.length := by
  induction dims with
  | nil => rfl
  | cons dim dims ih =>
    rw [flatMap_cons, length_append, ih, length_toBytes,
      length_cons, mul_succ, add_comm]

theorem ReadBlobDim_WriteBlobDim {dims : List Nat} (few : dims.length ≤ 4)
    (fit : ∀ dim ∈ dims, dim < 2 ^ 31) (file : List Byte) :
    ReadBlobDim (WriteBlobDim dims).2 ((WriteBlobDim dims).1 ++ file) =
      some (dims, file) := by
  have size : (BitVec.ofNat 8 dims.length).toNat = dims.length := by
    rw [BitVec.toNat_ofNat]
    exact mod_eq_of_lt (by omega)
  have narrow : ∀ dim ∈ dims, dim < 256 ^ (if (WriteBlobDim dims).2 = true then 4 else 2) := by
    intro dim isIn
    split
    · have small := fit dim isIn
      omega
    · next notWide =>
      rw [WriteBlobDim, any_eq_true] at notWide
      have small : ¬dim > 2 ^ 16 - 1 := fun large =>
        notWide ⟨dim, isIn, decide_eq_true large⟩
      omega
  have isFirst : (WriteBlobDim dims).1 = BitVec.ofNat 8 dims.length :: dims.flatMap
            (toBytes (if (WriteBlobDim dims).2 = true then 4 else 2)) :=
    rfl
  rw [isFirst, ReadBlobDim, cons_append, read_one]
  show (if ofBytes [BitVec.ofNat 8 dims.length] > 4 then some ([], _) else _) = _
  rw [ofBytes_single, size, if_neg (not_lt.mpr few),
    read_append (length_flatMap_toBytes _ dims)]
  exact congrArg (fun shape => some (shape, file)) (numbers_toBytes narrow)

theorem rankPass_of_le {head : Byte} {rest : List Byte}
    (least : ∀ next ∈ rest, next.slt head = false) :
    rankPass head rest = (head, rest) := by
  induction rest with
  | nil => rfl
  | cons next rest ih =>
    rw [rankPass, least next mem_cons_self,
      ih fun other isIn => least other (mem_cons_of_mem _ isIn)]
    rfl

theorem SimpleRank_of_sorted {data : List Byte}
    (sorted : data.Pairwise fun first second => second.slt first = false) :
    SimpleRank data = data := by
  unfold SimpleRank
  induction sorted with
  | nil => rfl
  | @cons head rest least _ ih =>
    rw [length_cons, rankFrom, rankPass_of_le least]
    exact congrArg (head :: ·) ih

/-! ## The linear set -/

section Codes

variable {bits : Nat} (positive : 1 ≤ bits) (small : bits ≤ 8)

include positive in
theorem two_mul_half : 2 * 2 ^ (bits - 1) = 2 ^ bits := by
  rw [← pow_succ']
  congr 1
  omega

include small in
theorem half_le : 2 ^ (bits - 1) ≤ 128 :=
  Nat.pow_le_pow_right (by decide : 0 < 2) (by omega : bits - 1 ≤ 7)

include positive in
@[simp]
theorem length_weightSet : (weightSet bits).length = 2 ^ bits := by
  rw [weightSet, length_map, length_range, two_mul_half positive]

include positive in
theorem needBits_weightSet : needBits (weightSet bits).length = bits := by
  rw [length_weightSet positive, needBits, clog_pow _ _ (by decide)]
  exact max_eq_right positive

/-- The samples that are written. -/
def linearSamples (bits : Nat) : List Byte := (weightSet bits).map (BitVec.ofInt 8)

include positive in
theorem length_linearSamples : (linearSamples bits).length = 2 ^ bits := by
  rw [linearSamples, length_map, length_weightSet positive]

theorem linearSamples_eq :
    linearSamples bits = (List.range (2 * 2 ^ (bits - 1))).map fun (i : Nat) =>
        BitVec.ofInt 8 (minValue bits + i) := by
  rw [linearSamples, weightSet, map_map]
  rfl

include small in
theorem toInt_sample {i : Nat} (less : i < 2 * 2 ^ (bits - 1)) :
    (BitVec.ofInt 8 (minValue bits + i)).toInt = minValue bits + i := by
  have half := half_le small
  rw [BitVec.toInt_ofInt]
  apply Int.bmod_eq_of_le
  · unfold minValue
    omega
  · unfold minValue
    omega

include small in
theorem sorted_linearSamples : (linearSamples bits).Pairwise
      fun first second => second.slt first = false := by
  rw [linearSamples_eq, pairwise_map]
  refine pairwise_lt_range.imp_of_mem ?_
  intro i j isIn isIn' less
  rw [BitVec.slt, toInt_sample small (mem_range.mp isIn),
    toInt_sample small (mem_range.mp isIn')]
  exact decide_eq_false (by omega)

include small in
theorem SimpleRank_linearSamples : SimpleRank (linearSamples bits) = linearSamples bits :=
  SimpleRank_of_sorted (sorted_linearSamples small)

include positive small in
theorem isLinearSample_linearSamples : isLinearSample (linearSamples bits) bits = true := by
  unfold isLinearSample
  simp only [Bool.and_eq_true, beq_iff_eq, all_eq_true]
  refine ⟨length_linearSamples positive, ?_⟩
  rintro ⟨value, i⟩ isIn
  rw [mem_zipIdx_iff_getElem?, linearSamples_eq, getElem?_map, Option.map_eq_some_iff] at isIn
  rcases isIn with ⟨j, isPlace, isValue⟩
  rcases List.getElem?_eq_some_iff.mp isPlace with ⟨less, same⟩
  rw [getElem_range] at same
  rw [length_range] at less
  simp only at same isValue less
  rw [← isValue, ← same, toInt_sample small less, minValue]
  omega

include positive small in
theorem atLestBitsCnt_linearSamples :
    max 1 (atLestBitsCnt (BitVec.ofNat 32 (linearSamples bits).length)) =
      bits := by
  rw [length_linearSamples positive]
  have table :
      ∀ bits : Fin 9, 1 ≤ bits.val →
        max 1 (atLestBitsCnt (BitVec.ofNat 32 (2 ^ bits.val))) = bits.val := by
    decide
  exact table ⟨bits, lt_succ_of_le small⟩ positive

include positive small in
/-- The number of samples is read back, also 256, for which zero is written. -/
theorem sampleCnt_linearSamples : (if ofBytes [BitVec.ofNat 8 (weightSet bits).length] = 0 then
        256
      else
        ofBytes [BitVec.ofNat 8 (weightSet bits).length]) =
      (linearSamples bits).length := by
  rw [length_linearSamples positive, length_weightSet positive, ofBytes_single]
  have table : ∀ bits : Fin 9, 1 ≤ bits.val → (if (BitVec.ofNat 8 (2 ^ bits.val)).toNat = 0 then
            256
          else
            (BitVec.ofNat 8 (2 ^ bits.val)).toNat) =
          2 ^ bits.val := by
    decide
  exact table ⟨bits, lt_succ_of_le small⟩ positive

/-! ## Codes -/

/-- What is packed for a value. -/
def codeOf (bits : Nat) (value : Int) : Byte := BitVec.ofInt 8 (value + (2 ^ (bits - 1) : Nat))

/-- The values that have a code. -/
def InRange (bits : Nat) (value : Int) : Prop := minValue bits ≤ value ∧ value ≤ maxValue bits

include small in
theorem toNat_codeOf {value : Int} (inRange : InRange bits value) :
    ((codeOf bits value).toNat : Int) = value + (2 ^ (bits - 1) : Nat) := by
  have half := half_le small
  rcases inRange with ⟨least, most⟩
  unfold minValue at least
  unfold maxValue at most
  rw [codeOf, BitVec.toNat_ofInt]
  omega

include positive small in
theorem codeOf_lt {value : Int} (inRange : InRange bits value) :
    (codeOf bits value).toNat < 2 ^ bits := by
  have code := toNat_codeOf small inRange
  have most := inRange.2
  have half := two_mul_half positive
  unfold maxValue at most
  omega

include positive small in
theorem toInt_code_sub {code : Byte} (less : code.toNat < 2 ^ bits) :
    (code - BitVec.ofNat 8 (2 ^ (bits - 1))).toInt = code.toNat - (2 ^ (bits - 1) : Nat) := by
  have half := half_le small
  rw [← two_mul_half positive] at less
  rw [BitVec.toInt_eq_toNat_cond, BitVec.toNat_sub, BitVec.toNat_ofNat]
  split <;> omega

include positive small in
theorem toInt_codeOf_sub {value : Int} (inRange : InRange bits value) :
    (codeOf bits value - BitVec.ofNat 8 (2 ^ (bits - 1))).toInt = value := by
  rw [toInt_code_sub positive small (codeOf_lt positive small inRange), toNat_codeOf small inRange]
  exact Int.add_sub_cancel ..

end Codes

end Mnn.Core.IDST
