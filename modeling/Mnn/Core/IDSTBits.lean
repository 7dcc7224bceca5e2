import Mnn.Foundation.BitFields

/-!
# Bit buffers of quantised weights

`FillBuffer` packs numbers of some bits each, and `SplitBufToArray` unpacks
them.  Where a number goes over the end of a byte, both treat its two parts on
their own.  An access behind the end of the buffer has no result.
-/

variable {buf arr : List Byte}

namespace Mnn.Core.IDST

open Mnn.Foundation.BitFields

/-- The pointer `tmp`, as an index, and the offset in bits behind it. -/
structure BitCursor where
  tmp : Nat := 0
  iOffset : Nat := 0

variable (cursor : BitCursor)

namespace BitCursor

def next (cursor : BitCursor) (iNeedBits : Nat) : BitCursor :=
  let iOffset := cursor.iOffset + iNeedBits
  if iOffset % 8 = 0 then
    { tmp := cursor.tmp + iOffset / 8, iOffset := 0 }
  else
    { cursor with iOffset := iOffset }

/-- The byte in which the number at the cursor begins. -/
def index (cursor : BitCursor) : Nat := cursor.tmp + cursor.iOffset / 8

def uShift (cursor : BitCursor) (iNeedBits : Nat) : Int :=
  8 - iNeedBits - (cursor.iOffset % 8 : Nat)

/-- How many bits are in front of the cursor. -/
def position (cursor : BitCursor) : Nat := 8 * cursor.tmp + cursor.iOffset

@[simp]
theorem position_next (iNeedBits : Nat) :
    (cursor.next iNeedBits).position = cursor.position + iNeedBits := by
  unfold next
  simp only
  by_cases whole : (cursor.iOffset + iNeedBits) % 8 = 0
  · rw [if_pos whole]
    show 8 * (cursor.tmp + (cursor.iOffset + iNeedBits) / 8) + 0 =
      8 * cursor.tmp + cursor.iOffset + iNeedBits
    omega
  · rw [if_neg whole]
    exact (add_assoc ..).symm

theorem index_eq : cursor.index = cursor.position / 8 := by
  unfold index position
  omega

theorem uShift_eq (iNeedBits : Nat) :
    cursor.uShift iNeedBits = 8 - iNeedBits - (cursor.position % 8 : Nat) := by
  unfold uShift position
  omega

end BitCursor

/-! ## Packing -/

/-- `buf[index] |= value` -/
def orByte (buf : List Byte) (index : Nat) (value : Byte) : Option (List Byte) :=
  if index < buf.length then
    some (buf.modify index (· ||| value))
  else
    none

/-- The body of the loop in `FillBuffer`. -/
def putValue (iNeedBits : Nat) (buf : List Byte) (cursor : BitCursor) (value : Byte) :
    Option (List Byte) :=
  let uShift := cursor.uShift iNeedBits
  let masked := value &&& mask iNeedBits
  if uShift < 0 then
    (orByte buf cursor.index (masked >>> (0 - uShift).toNat)).bind fun buf =>
      orByte buf (cursor.index + 1) (masked <<< (8 + uShift).toNat)
  else
    orByte buf cursor.index (masked <<< uShift.toNat)

def fillFrom (iNeedBits : Nat) : List Byte → List Byte → BitCursor → Option (List Byte)
  | [], buf, _ => some buf
  | value :: arr, buf, cursor =>
    (putValue iNeedBits buf cursor value).bind fun buf =>
      fillFrom iNeedBits arr buf (cursor.next iNeedBits)

def FillBuffer (buf_len : Nat) (arr : List Byte) (iNeedBits : Nat) : Option (List Byte) :=
  fillFrom iNeedBits arr (List.replicate buf_len 0) {}

/-- The body of the loop in `SplitBufToArray`. -/
def takeValue (iNeedBits : Nat) (buf : List Byte) (cursor : BitCursor) : Option Byte :=
  let uShift := cursor.uShift iNeedBits
  let cMask := mask iNeedBits
  if uShift < 0 then
    buf[cursor.index]?.bind fun (high : Byte) =>
      buf[cursor.index + 1]?.map fun (low : Byte) =>
        (high <<< (0 - uShift).toNat) &&& cMask ||| (low >>> (8 + uShift).toNat) &&& cMask
  else
    buf[cursor.index]?.map fun (byte : Byte) => (byte >>> uShift.toNat) &&& cMask

def splitFrom (iNeedBits : Nat) (buf : List Byte) : Nat → BitCursor → Option (List Byte)
  | 0, _ => some []
  | arrLen + 1, cursor =>
    (takeValue iNeedBits buf cursor).bind fun idx =>
      (splitFrom iNeedBits buf arrLen (cursor.next iNeedBits)).map (idx :: ·)

def SplitBufToArray (buf : List Byte) (arrLen iNeedBits : Nat) : Option (List Byte) :=
  splitFrom iNeedBits buf arrLen {}

/-! ## What is packed -/

theorem orByte_spec {index : Nat} (inBuffer : index < buf.length) (value : Byte) :
    ∃ filled, orByte buf index value = some filled ∧ filled.length = buf.length ∧
      ∀ n, bit filled n = (bit buf n || decide (n / 8 = index) && value.getMsbD (n % 8)) := by
  refine ⟨buf.modify index (· ||| value), if_pos inBuffer, ?_, ?_⟩
  · exact List.length_modify ..
  · exact bit_modify inBuffer value

section Bits

variable {iNeedBits : Nat} (positive : 0 < iNeedBits) (small : iNeedBits ≤ 8)

include small in
theorem getMsbD_masked_shiftLeft (value : Byte) (shift : Nat) {j : Nat} (low : j < 8) :
    ((value &&& mask iNeedBits) <<< shift).getMsbD j =
      (decide (8 ≤ iNeedBits + shift + j ∧ j + shift < 8) && value.getLsbD (7 - shift - j)) := by
  rw [BitVec.getMsbD_shiftLeft, BitVec.getMsbD_eq_getLsbD, BitVec.getLsbD_and]
  by_cases inByte : j + shift < 8
  · have place : 8 - 1 - (j + shift) = 7 - shift - j := by omega
    rw [place, getLsbD_mask small (by omega)]
    have inside :
        decide (7 - shift - j < iNeedBits) =
          decide (8 ≤ iNeedBits + shift + j ∧ j + shift < 8) := by
      apply decide_eq_decide.mpr
      omega
    rw [inside, decide_eq_true inByte, Bool.true_and, Bool.and_comm]
  · have outside : ¬(8 ≤ iNeedBits + shift + j ∧ j + shift < 8) := by omega
    rw [decide_eq_false inByte, decide_eq_false outside, Bool.false_and, Bool.false_and]

include small in
theorem getMsbD_masked_shiftRight (value : Byte) (shift : Nat) {j : Nat} (low : j < 8) :
    ((value &&& mask iNeedBits) >>> shift).getMsbD j =
      (decide (8 + shift ≤ iNeedBits + j) && value.getLsbD (7 + shift - j)) := by
  have place : shift + (8 - 1 - j) = 7 + shift - j := by omega
  rw [BitVec.getMsbD_eq_getLsbD, decide_eq_true low, Bool.true_and,
    BitVec.getLsbD_ushiftRight, place, BitVec.getLsbD_and]
  by_cases inByte : 7 + shift - j < 8
  · have inside :
        decide (7 + shift - j < iNeedBits) =
          decide (8 + shift ≤ iNeedBits + j) := by
      apply decide_eq_decide.mpr
      omega
    rw [getLsbD_mask small inByte, inside, Bool.and_comm]
  · have outside : ¬8 + shift ≤ iNeedBits + j := by omega
    rw [BitVec.getLsbD_of_ge _ _ (Nat.le_of_not_lt inByte),
      decide_eq_false outside, Bool.false_and, Bool.false_and]

include positive small in
/-- The loop body sets the bits of the number behind the cursor. -/
theorem putValue_spec (buf : List Byte) (cursor : BitCursor) (value : Byte)
    (room : cursor.position + iNeedBits ≤ 8 * buf.length) :
    ∃ filled, putValue iNeedBits buf cursor value = some filled ∧ filled.length = buf.length ∧
      ∀ n, bit filled n = (bit buf n ||
          decide (cursor.position ≤ n ∧ n < cursor.position + iNeedBits) &&
            value.getLsbD (iNeedBits - 1 - (n - cursor.position))) := by
  have inBuffer : cursor.index < buf.length := by
    rw [cursor.index_eq]
    omega
  unfold putValue
  simp only [cursor.uShift_eq]
  generalize isPosition : cursor.position = position at room
  have isIndex : cursor.index = position / 8 := by
    rw [cursor.index_eq, isPosition]
  have split (n : Nat) : 8 * (n / 8) + n % 8 = n := Nat.div_add_mod n 8
  have inByte (n : Nat) : n % 8 < 8 := Nat.mod_lt n (by decide)
  by_cases crosses : (8 : Int) - iNeedBits - (position % 8 : Nat) < 0
  · rw [if_pos crosses]
    have nextInBuffer : cursor.index + 1 < buf.length := by omega
    rcases orByte_spec inBuffer ((value &&& mask iNeedBits) >>>
          (0 - ((8 : Int) - iNeedBits - (position % 8 : Nat))).toNat) with
      ⟨half, isHalf, sameLength, halfBits⟩
    rcases orByte_spec (sameLength.symm ▸ nextInBuffer) ((value &&& mask iNeedBits) <<<
          (8 + ((8 : Int) - iNeedBits - (position % 8 : Nat))).toNat) with
      ⟨filled, isFilled, sameLength', filledBits⟩
    refine ⟨filled, ?_, sameLength'.trans sameLength, ?_⟩
    · rw [isHalf]
      exact isFilled
    · intro n
      rw [filledBits, halfBits, Bool.or_assoc, getMsbD_masked_shiftRight small value _ (inByte n),
        getMsbD_masked_shiftLeft small value _ (inByte n)]
      congr 1
      have inside := split n
      by_cases inField : position ≤ n ∧ n < position + iNeedBits
      · rw [decide_eq_true inField, Bool.true_and]
        by_cases sameByte : n / 8 = cursor.index
        · rw [decide_eq_true sameByte, Bool.true_and,
            decide_eq_false (p := n / 8 = cursor.index + 1) (by omega),
            Bool.false_and, Bool.or_false, decide_eq_true (by omega),
            Bool.true_and]
          congr 1
          omega
        · have nextByte : n / 8 = cursor.index + 1 := by omega
          rw [decide_eq_false sameByte, Bool.false_and, Bool.false_or,
            decide_eq_true nextByte, Bool.true_and, decide_eq_true (by omega),
            Bool.true_and]
          congr 1
          omega
      · rw [decide_eq_false inField, Bool.false_and, Bool.or_eq_false_iff]
        constructor
        · by_cases sameByte : n / 8 = cursor.index
          · rw [decide_eq_true sameByte, Bool.true_and, decide_eq_false (by omega), Bool.false_and]
          · rw [decide_eq_false sameByte, Bool.false_and]
        · by_cases nextByte : n / 8 = cursor.index + 1
          · rw [decide_eq_true nextByte, Bool.true_and, decide_eq_false (by omega), Bool.false_and]
          · rw [decide_eq_false nextByte, Bool.false_and]
  · rw [if_neg crosses]
    rcases orByte_spec inBuffer ((value &&& mask iNeedBits) <<<
          ((8 : Int) - iNeedBits - (position % 8 : Nat)).toNat) with
      ⟨filled, isFilled, sameLength, filledBits⟩
    refine ⟨filled, isFilled, sameLength, ?_⟩
    intro n
    rw [filledBits, getMsbD_masked_shiftLeft small value _ (inByte n)]
    congr 1
    by_cases inField : position ≤ n ∧ n < position + iNeedBits
    · have sameByte : n / 8 = cursor.index := by omega
      have inside := split n
      rw [decide_eq_true inField, decide_eq_true sameByte, Bool.true_and,
        Bool.true_and, decide_eq_true (by omega), Bool.true_and]
      congr 1
      omega
    · rw [decide_eq_false inField, Bool.false_and]
      by_cases sameByte : n / 8 = cursor.index
      · have outside := split n
        rw [decide_eq_true sameByte, Bool.true_and, decide_eq_false (by omega), Bool.false_and]
      · rw [decide_eq_false sameByte, Bool.false_and]

include positive small in
theorem takeValue_spec (buf : List Byte) (cursor : BitCursor)
    (room : cursor.position + iNeedBits ≤ 8 * buf.length) :
    ∃ idx, takeValue iNeedBits buf cursor = some idx ∧
      FieldAt buf iNeedBits cursor.position idx := by
  have inBuffer : cursor.index < buf.length := by
    rw [cursor.index_eq]
    omega
  unfold takeValue
  simp only [cursor.uShift_eq]
  generalize isPosition : cursor.position = position at room
  have isIndex : cursor.index = position / 8 := by
    rw [cursor.index_eq, isPosition]
  rw [List.getElem?_eq_getElem inBuffer]
  have bitOf {i j : Nat} (inBuf : i < buf.length) (low : j < 8) {n : Nat}
      (place : n = 8 * i + (7 - j)) :
      bit buf n = buf[i].getLsbD j := by
    have byte := fieldAt_byte inBuf j low
    have same : i * 8 + (8 - 1 - j) = n := by omega
    rw [same, decide_eq_true low, Bool.true_and] at byte
    exact byte.symm
  by_cases crosses : (8 : Int) - iNeedBits - (position % 8 : Nat) < 0
  · have nextInBuffer : cursor.index + 1 < buf.length := by omega
    rw [if_pos crosses, List.getElem?_eq_getElem nextInBuffer]
    refine ⟨_, rfl, ?_⟩
    intro j low
    rw [BitVec.getLsbD_or, BitVec.getLsbD_and, BitVec.getLsbD_and,
      getLsbD_mask small low, BitVec.getLsbD_shiftLeft,
      BitVec.getLsbD_ushiftRight]
    by_cases inField : j < iNeedBits
    · rw [decide_eq_true inField, decide_eq_true low]
      simp only [Bool.and_true, Bool.true_and]
      by_cases inLow : j < (0 - ((8 : Int) - iNeedBits - (position % 8 : Nat))).toNat
      · rw [bitOf nextInBuffer (by omega) (j :=
            (8 + ((8 : Int) - iNeedBits - (position % 8 : Nat))).toNat + j)
            (by omega), decide_eq_true inLow]
        exact Bool.false_or _
      · have noLow : buf[cursor.index + 1].getLsbD
                ((8 + ((8 : Int) - iNeedBits - (position % 8 : Nat))).toNat +
                  j) = false :=
          BitVec.getLsbD_of_ge _ _ (by omega)
        rw [bitOf inBuffer (by omega) (j := j -
            (0 - ((8 : Int) - iNeedBits - (position % 8 : Nat))).toNat)
            (by omega), decide_eq_false inLow, noLow, Bool.or_false]
        rfl
    · rw [decide_eq_false inField]
      simp only [Bool.and_false, Bool.false_and, Bool.or_false]
  · rw [if_neg crosses]
    refine ⟨_, rfl, ?_⟩
    intro j low
    rw [BitVec.getLsbD_and, getLsbD_mask small low, BitVec.getLsbD_ushiftRight]
    by_cases inField : j < iNeedBits
    · rw [bitOf inBuffer (by omega) (j :=
          ((8 : Int) - iNeedBits - (position % 8 : Nat)).toNat + j) (by omega),
        Bool.and_comm]
    · rw [decide_eq_false inField, Bool.and_false, Bool.false_and]

/-! ## Whole buffers -/

include positive small in
/-- Numbers are packed behind the cursor; what is in front of it stays. -/
theorem fillFrom_spec (arr buf : List Byte) (cursor : BitCursor)
    (empty : ∀ n, cursor.position ≤ n → bit buf n = false)
    (room : cursor.position + arr.length * iNeedBits ≤ 8 * buf.length) :
    ∃ filled, fillFrom iNeedBits arr buf cursor = some filled ∧ filled.length = buf.length ∧
      (∀ n < cursor.position, bit filled n = bit buf n) ∧
      ∀ i value, arr[i]? = some value → FieldAt filled iNeedBits (cursor.position + i * iNeedBits)
          (value &&& mask iNeedBits) := by
  induction arr generalizing buf cursor with
  | nil =>
    refine ⟨buf, rfl, rfl, fun _ _ => rfl, ?_⟩
    intro i value impossible
    nomatch impossible
  | cons first arr ih =>
    rw [List.length_cons, Nat.succ_mul] at room
    rcases putValue_spec positive small buf cursor first (by omega) with
      ⟨placed, isPlaced, sameLength, placedBits⟩
    have emptyBehind : ∀ n, (cursor.next iNeedBits).position ≤ n → bit placed n = false := by
      intro n behind
      rw [BitCursor.position_next] at behind
      rw [placedBits, empty n (by omega), decide_eq_false (by omega)]
      rfl
    have roomBehind :
        (cursor.next iNeedBits).position + arr.length * iNeedBits ≤ 8 * placed.length := by
      rw [BitCursor.position_next, sameLength]
      omega
    rcases ih placed _ emptyBehind roomBehind with
      ⟨filled, isFilled, sameLength', before, fields⟩
    rw [BitCursor.position_next] at before fields
    refine ⟨filled, ?_, sameLength'.trans sameLength, ?_, ?_⟩
    · rw [fillFrom, isPlaced]
      exact isFilled
    · intro n less
      rw [before n (by omega), placedBits, decide_eq_false (by omega),
        Bool.false_and, Bool.or_false]
    · intro i value isValue
      cases i with
      | zero =>
        obtain rfl : first = value := Option.some.inj isValue
        intro j low
        rw [zero_mul, add_zero, BitVec.getLsbD_and, getLsbD_mask small low]
        by_cases inField : j < iNeedBits
        · have inside : cursor.position + (iNeedBits - 1 - j) < cursor.position + iNeedBits := by
            omega
          have back : iNeedBits - 1 - (cursor.position + (iNeedBits - 1 - j) -
                    cursor.position) = j := by
            omega
          rw [before _ inside, placedBits, back, empty _ (Nat.le_add_right ..),
            decide_eq_true inField,
            decide_eq_true ⟨Nat.le_add_right .., inside⟩]
          simp only [Bool.and_true, Bool.true_and, Bool.false_or]
        · rw [decide_eq_false inField, Bool.and_false, Bool.false_and]
      | succ i =>
        have field := fields i value isValue
        rwa [add_assoc, add_comm iNeedBits, ← Nat.succ_mul] at field

include positive small in
theorem splitFrom_spec (buf : List Byte) (arrLen : Nat) (cursor : BitCursor)
    (room : cursor.position + arrLen * iNeedBits ≤ 8 * buf.length) :
    ∃ arr, splitFrom iNeedBits buf arrLen cursor = some arr ∧ arr.length = arrLen ∧
      ∀ i value, arr[i]? = some value →
        FieldAt buf iNeedBits (cursor.position + i * iNeedBits) value := by
  induction arrLen generalizing cursor with
  | zero =>
    refine ⟨[], rfl, rfl, ?_⟩
    intro i value impossible
    nomatch impossible
  | succ arrLen ih =>
    rw [Nat.succ_mul] at room
    rcases takeValue_spec positive small buf cursor (by omega) with
      ⟨first, isFirst, firstField⟩
    have roomBehind : (cursor.next iNeedBits).position + arrLen * iNeedBits ≤ 8 * buf.length := by
      rw [BitCursor.position_next]
      omega
    rcases ih _ roomBehind with ⟨arr, isArr, hasLength, fields⟩
    refine ⟨first :: arr, ?_, congrArg Nat.succ hasLength, ?_⟩
    · rw [splitFrom, isFirst]
      show (splitFrom iNeedBits buf arrLen (cursor.next iNeedBits)).map _ = _
      rw [isArr]
      rfl
    · intro i value isValue
      cases i with
      | zero =>
        obtain rfl : first = value := Option.some.inj isValue
        rwa [zero_mul, add_zero]
      | succ i =>
        have field := fields i value isValue
        rwa [BitCursor.position_next, add_assoc, add_comm iNeedBits,
          ← Nat.succ_mul] at field

/-- A buffer holds these numbers. -/
def Packs (iNeedBits : Nat) (arr buf : List Byte) : Prop :=
  arr.length * iNeedBits ≤ 8 * buf.length ∧
    ∀ i value, arr[i]? = some value → FieldAt buf iNeedBits (i * iNeedBits) value

include positive small in
theorem FillBuffer_packs {buf_len : Nat} (room : arr.length * iNeedBits ≤ 8 * buf_len)
    (fits : ∀ value ∈ arr, value.toNat < 2 ^ iNeedBits) :
    ∃ buf, FillBuffer buf_len arr iNeedBits = some buf ∧
      buf.length = buf_len ∧ Packs iNeedBits arr buf := by
  have start : BitCursor.position {} = 0 := rfl
  rcases fillFrom_spec positive small arr (List.replicate buf_len 0) {}
      (fun n _ => bit_replicate_zero buf_len n)
      (by rwa [start, zero_add, List.length_replicate]) with
    ⟨buf, isBuf, hasLength, -, fields⟩
  rw [List.length_replicate] at hasLength
  refine ⟨buf, isBuf, hasLength, hasLength.symm ▸ room, ?_⟩
  intro i value isValue
  have field := fields i value isValue
  rwa [start, zero_add,
    and_mask_of_lt small (fits value (List.mem_of_getElem? isValue))] at field

/-- Two lists of the same length are packed in one buffer at most once. -/
theorem Packs.unique {arr' : List Byte} (packs : Packs iNeedBits arr buf)
    (packs' : Packs iNeedBits arr' buf) (sameLength : arr'.length = arr.length) :
    arr' = arr := by
  apply List.ext_getElem sameLength
  intro i less' less
  exact (packs'.2 i _ (List.getElem?_eq_getElem less')).unique
      (packs.2 i _ (List.getElem?_eq_getElem less))

include positive small in
theorem Packs.split (packs : Packs iNeedBits arr buf) :
    SplitBufToArray buf arr.length iNeedBits = some arr := by
  have start : BitCursor.position {} = 0 := rfl
  rcases splitFrom_spec positive small buf arr.length {}
      (by rw [start, zero_add]; exact packs.1) with
    ⟨arr', isArr, hasLength, fields⟩
  have packs' : Packs iNeedBits arr' buf := by
    refine ⟨hasLength.symm ▸ packs.1, ?_⟩
    intro i value isValue
    have field := fields i value isValue
    rwa [start, zero_add] at field
  rw [SplitBufToArray, isArr, packs.unique packs' hasLength]

end Bits

/-!
# The encoder of quantised weights

Weights are written as a shape, the values that occur, and the index of the
value of each weight.  The sparse form has an index only for weights that
differ from zero, and the steps between them.  Buffers are lists of bytes, and
pointers are functions.  What is rounded is taken to be an `int`; a product of
two `int`s that overflows has no result.
-/

/-- The sizes of the kernels, which are `int`s. -/
structure Kernel where
  area : Nat
  channel : Nat
  area_lt : area < 2 ^ 31
  channel_lt : channel < 2 ^ 31

/-- `area * channel`; signed overflow is undefined. -/
def Kernel.weightSize (kernel : Kernel) : Option Nat :=
  if kernel.area * kernel.channel < 2 ^ 31 then
    some (kernel.area * kernel.channel)
  else
    none

/-- The operations on `float` that the encoder uses. -/
structure FloatOps (F : Type) where
  /-- `0.0f` -/
  zero : F
  sub : F → F → F
  div : F → F → F
  /-- `round(quotient) + offset` -/
  round : F → Int → Int
  /-- `alpha > 1e-6f` -/
  isScale : F → Bool

structure FloatTensor (F : Type) where
  weightData : Nat → F
  alphaData : Nat → F
  asymmetricQuantFlag : Bool

/-- `ceil(0.125 * bits)` -/
def bytesOf (bits : Nat) : Nat := (bits + 7) / 8

def minValue (bits : Nat) : Int := -(2 ^ (bits - 1) : Nat)

def maxValue (bits : Nat) : Int := (2 ^ (bits - 1) : Nat) - 1

/-- `fmax(fmin(value, max_value), min_value)` -/
def clamp (bits : Nat) (value : Int) : Int := max (min value (maxValue bits)) (minValue bits)

/-- `GetWeightSet`, in ascending order: a linear map is used. -/
def weightSet (bits : Nat) : List Int :=
  (List.range (2 * 2 ^ (bits - 1))).map fun (i : Nat) => minValue bits + i

/-- `ceil(log2(count))`, but at least one. -/
def needBits (count : Nat) : Nat := max 1 (Nat.clog 2 count)

def WriteBlobDim (dims : List Nat) : List Byte × Bool :=
  let useInt32 := dims.any fun dim => dim > 2 ^ 16 - 1
  (BitVec.ofNat 8 dims.length ::
      dims.flatMap (toBytes (if useInt32 then 4 else 2)),
    useInt32)

namespace FloatTensor

variable {F : Type} (ops : FloatOps F) (tensor : FloatTensor F) (bits : Nat)

/-- What a weight is quantised to; the dense encoder limits what is rounded. -/
def quantise (limit : Int → Int) (channel : Nat) (weight : F) : Int :=
  if tensor.asymmetricQuantFlag then
    let min := tensor.alphaData (2 * channel)
    let alpha := tensor.alphaData (2 * channel + 1)
    if ops.isScale alpha then
      limit (ops.round (ops.div (ops.sub weight min) alpha) (minValue bits))
    else
      minValue bits
  else
    let alpha := tensor.alphaData channel
    if ops.isScale alpha then
      limit (ops.round (ops.div weight alpha) 0)
    else
      0

/-- What zero is quantised to. -/
def zeroQuant (channel : Nat) : Int :=
  if tensor.asymmetricQuantFlag then
    let min := tensor.alphaData (2 * channel)
    let alpha := tensor.alphaData (2 * channel + 1)
    if ops.isScale alpha then
      ops.round (ops.div (ops.sub ops.zero min) alpha) (minValue bits)
    else
      minValue bits
  else
    0

end FloatTensor

/-- What `WriteCQBlobs` and `WriteCQBlobsInt8` write for these values. -/
def writeValues (kernel : Kernel) (bits : Nat) (values : List Int) : Option (List Byte × Bool) :=
  let setWeight := weightSet bits
  let iNeedBits := needBits setWeight.length
  if iNeedBits > 8 then
    some ([], false)
  else
    kernel.weightSize.bind fun count =>
      let arr :=
        values.map fun value =>
          BitVec.ofInt 8 (value + (2 ^ (bits - 1) : Nat))
      (FillBuffer (bytesOf (iNeedBits * count)) arr iNeedBits).map fun buf =>
        let shape := WriteBlobDim [kernel.channel, kernel.area]
        (shape.1 ++ BitVec.ofNat 8 setWeight.length ::
            setWeight.map (BitVec.ofInt 8) ++ buf,
          shape.2)

def WriteCQBlobsInt8 (kernel : Kernel) (weightData : Nat → Int) (bits : Nat) :
    Option (List Byte × Bool) :=
  writeValues kernel bits ((List.range kernel.channel).flatMap fun i =>
      (List.range kernel.area).map fun j => weightData (i * kernel.area + j))

def WriteCQBlobs {F : Type} (ops : FloatOps F) (kernel : Kernel) (tensor : FloatTensor F)
    (bits : Nat) : Option (List Byte × Bool) :=
  writeValues kernel bits ((List.range kernel.channel).flatMap fun i =>
      (List.range kernel.area).map fun j =>
        tensor.quantise ops bits (clamp bits) i (tensor.weightData (i * kernel.area + j)))

/-! ## Sparse weights -/

section Sparse

variable (value zeroQuant : Nat → Int)

/-- The loop of `GetSparsity`, from `i` on. -/
def countFrom (iMaxStep : Int) : Nat → Nat → Nat → Nat → Nat
  | 0, _, _, nnz => nnz
  | rest + 1, i, iPreIdx, nnz =>
    let (iPreIdx, nnz) :=
      if value i ≠ zeroQuant i then (i, nnz + 1) else (iPreIdx, nnz)
    let (iPreIdx, nnz) :=
      if ((i - iPreIdx : Nat) : Int) ≥ iMaxStep ∧ iMaxStep ≠ -1 then
        (i, nnz + 1)
      else
        (iPreIdx, nnz)
    countFrom iMaxStep rest (i + 1) iPreIdx nnz

/-- `nnz`, as `GetSparsity` counts it. -/
def GetSparsity (weightSize : Nat) (iMaxStep : Int) : Nat :=
  countFrom value zeroQuant iMaxStep weightSize 0 0 0

/-- What is known after some step widths. -/
structure BestMaxStep where
  /-- The code leaves it uninitialised. -/
  iMaxStepBits : Nat := 0
  szBestSize : Nat := 1000000000
  best_nnz : Nat := 0

def GetBestMaxStep (weightSize BlobDataSize : Nat) : BestMaxStep := (List.range' 2 7).foldl
    (fun best i =>
      let nnz := GetSparsity value zeroQuant weightSize (2 ^ i - 1)
      let tmp := bytesOf (nnz * i) + bytesOf (nnz * BlobDataSize)
      if tmp < best.szBestSize then
        { iMaxStepBits := i, szBestSize := tmp, best_nnz := nnz }
      else
        best)
    {}

/-- The loop that fills `arr_idx` and `data_arr`, from `i` on. -/
def entriesFrom (iMaxStep : Int) : Nat → Nat → Nat → List (Nat × Int)
  | 0, _, _ => []
  | rest + 1, i, iPreIdx =>
    let (iPreIdx, entries) :=
      if value i ≠ zeroQuant i then
        (i, [(i - iPreIdx, value i)])
      else
        (iPreIdx, [])
    let (iPreIdx, fillers) :=
      if ((i - iPreIdx : Nat) : Int) ≥ iMaxStep then
        (i, [(i - iPreIdx, zeroQuant i)])
      else
        (iPreIdx, [])
    entries ++ fillers ++ entriesFrom iMaxStep rest (i + 1) iPreIdx

/-- `mapWeight[value]`, which is zero for a value that is not in the set. -/
def mapWeight (setWeight : List Int) (value : Int) : Byte :=
  if value ∈ setWeight then BitVec.ofNat 8 (setWeight.idxOf value) else 0

end Sparse

/-- Nothing is written, and the result is `none`, if there is no entry. -/
def WriteSparseQuanBlobs {F : Type} (ops : FloatOps F) (kernel : Kernel) (tensor : FloatTensor F)
    (bits : Nat) : Option (Option (List Byte × Bool)) :=
  let setWeight := weightSet bits
  let iDataNeedBits := needBits setWeight.length
  kernel.weightSize.bind fun weightSize =>
    let value i :=
      tensor.quantise ops bits id (i / kernel.area) (tensor.weightData i)
    let zeroQuant i := tensor.zeroQuant ops bits (i / kernel.area)
    let best := GetBestMaxStep value zeroQuant weightSize iDataNeedBits
    let nnz := best.best_nnz
    let iNeedBits := best.iMaxStepBits
    if nnz ≤ 0 then
      some none
    else
      let entries :=
        entriesFrom value zeroQuant (2 ^ iNeedBits - 1) weightSize 0 0
      -- The arrays have room for `nnz` entries, all of which are packed.
      if entries.length ≠ nnz then
        none
      else
        let arr_idx := entries.map fun entry => BitVec.ofNat 8 entry.1
        let data_arr := entries.map fun entry => mapWeight setWeight entry.2
        (FillBuffer (bytesOf (iNeedBits * nnz)) arr_idx iNeedBits).bind fun buf =>
            (FillBuffer (bytesOf (iDataNeedBits * nnz)) data_arr iDataNeedBits).map fun data_buf =>
              let shape := WriteBlobDim [kernel.channel, kernel.area]
              some (shape.1 ++ toBytes 4 nnz ++ BitVec.ofNat 8 iNeedBits ::
                    buf ++ BitVec.ofNat 8 setWeight.length ::
                    setWeight.map (BitVec.ofInt 8) ++ data_buf,
                  shape.2)

end Mnn.Core.IDST
