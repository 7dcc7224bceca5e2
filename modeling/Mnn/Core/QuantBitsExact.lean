import Mnn.Core.ConvolutionCommon
import Mnn.Core.QuantBits

/-!
# Which bit widths are found

If the reader takes off as many bytes as the writer has put before the codes, the
width is found unless the layer is so small that the guess is out of range: then a one
is shifted by more bits than there are.  If only the number of weights of a channel
needs four bytes, the reader takes off too little, no width fits, and the guess is
returned.
-/

namespace Mnn.Core.IDST

open Mnn.Foundation BitFields BinaryRounding
open Option
open Nat

/-! ## Numbers of bytes -/

/-- The values and the codes. -/
def tableAndCodes (weightLength bits : Nat) : Nat := 2 ^ bits + UP_DIV (weightLength * bits) 8

section Bytes

variable {weightLength bits : Nat}

theorem codeBytes_eq (isInt : weightLength < 2 ^ 31) (few : bits < 31) :
    codeBytes weightLength bits = some (tableAndCodes weightLength bits) := by
  have table : 2 ^ bits ≤ 2 ^ 30 := Nat.pow_le_pow_right Nat.two_pos (Nat.le_of_lt_succ few)
  have codes : weightLength * bits ≤ 2 ^ 31 * 30 := Nat.mul_le_mul isInt.le (Nat.le_of_lt_succ few)
  rw [codeBytes, shiftOne, if_pos few, map_some, mod_eq_of_lt]
  · rfl
  · unfold UP_DIV
    omega

theorem tableAndCodes_strictMono (weightLength : Nat) : StrictMono (tableAndCodes weightLength) := by
  refine strictMono_nat_of_lt_succ fun bits => ?_
  have codes : weightLength * bits ≤ weightLength * (bits + 1) :=
    mul_le_mul_left _ (le_succ bits)
  have table : 2 ^ bits < 2 ^ (bits + 1) := Nat.pow_lt_pow_succ Nat.one_lt_two
  unfold tableAndCodes UP_DIV
  omega

/-- Many weights have more than four bytes of codes for each bit. -/
theorem tableAndCodes_gap (many : 65535 < weightLength) {other : Nat} (bits : Nat) :
    tableAndCodes weightLength other ≠ tableAndCodes weightLength bits + 4 := by
  have next : tableAndCodes weightLength bits + 4 < tableAndCodes weightLength (bits + 1) := by
    have table : 2 ^ bits ≤ 2 ^ (bits + 1) := Nat.pow_le_pow_right Nat.two_pos (Nat.le_succ bits)
    unfold tableAndCodes UP_DIV
    rw [mul_succ]
    omega
  have mono := (tableAndCodes_strictMono weightLength).monotone
  rcases lt_or_ge bits other with later | earlier
  · have bound := mono (succ_le_of_lt later)
    rw [succ_eq_add_one] at bound
    omega
  · have bound := mono earlier
    omega

end Bytes

/-! ## The guess -/

/-- The bytes for each weight, as a `float`. -/
def bytesForWeight (remain weightLength : Nat) : ℚ := float (float remain / float weightLength)

section Guess

variable {remain weightLength : Nat}

theorem float_pos {x : ℚ} (positive : 0 < x) : 0 < float x :=
  (zpow_pos two_pos _).trans_le (zpow_le_roundTo (by decide) positive)

theorem float_natCast {m : Nat} (few : m ≤ 2 ^ 24) : float m = m :=
  (isRounded_natCast few).roundTo_eq (by decide)

theorem bytesForWeight_pos (someByte : 0 < remain) (someWeight : 0 < weightLength) :
    0 < bytesForWeight remain weightLength :=
  float_pos (div_pos (float_pos (cast_pos.mpr someByte)) (float_pos (cast_pos.mpr someWeight)))

theorem le_guessBits_iff (someByte : 0 < remain) (someWeight : 0 < weightLength) {bits : Nat} :
    bits ≤ guessBits remain weightLength ↔ (bits : ℚ) / 8 ≤ bytesForWeight remain weightLength := by
  have positive := bytesForWeight_pos someByte someWeight
  have quotient : 0 < float remain / float weightLength :=
    div_pos (float_pos (cast_pos.mpr someByte)) (float_pos (cast_pos.mpr someWeight))
  -- Eight is a power of two, so that nothing is rounded.
  have exact8 : float (bytesForWeight remain weightLength * 8) =
      bytesForWeight remain weightLength * 8 := by
    have rounded : IsRounded 24 (bytesForWeight remain weightLength * 2 ^ (3 : Int)) :=
      (isRounded_roundTo quotient).mul_zpow 3
    have eight : (2 : ℚ) ^ (3 : Int) = 8 := by norm_num
    rw [eight] at rounded
    exact rounded.roundTo_eq (by decide)
  have isFloor : 0 ≤ ⌊bytesForWeight remain weightLength * 8⌋ :=
    Int.floor_nonneg.mpr (by positivity)
  have isGuess :
      guessBits remain weightLength = ⌊bytesForWeight remain weightLength * 8⌋.toNat := by
    rw [guessBits, ← exact8]
    rfl
  rw [isGuess, Int.le_toNat isFloor, Int.le_floor, div_le_iff₀ (by norm_num), Int.cast_natCast]

theorem float_bounds {x : ℚ} (positive : 0 < x) :
    x * (1 - 1 / 2 ^ 24) ≤ float x ∧ float x ≤ x * (1 + 1 / 2 ^ 24) := by
  have near := abs_le.mp (@abs_roundTo_sub_le ℚ _ _ _ _ 24 x positive)
  have isFloat : roundTo 24 x = float x := rfl
  rw [isFloat] at near
  constructor
  · linarith [near.1]
  · linarith [near.2]

section

variable {bound : ℚ} (rounded : IsRounded 24 bound)

include rounded

theorem bytesForWeight_le (positive : 0 < bound)
    (someByte : 0 < remain) (someWeight : 0 < weightLength)
    (room : (remain : ℚ) * (1 + 1 / 2 ^ 24) ≤ bound * (weightLength * (1 - 1 / 2 ^ 24))) :
    bytesForWeight remain weightLength ≤ bound := by
  have bytes : (0 : ℚ) < remain := cast_pos.mpr someByte
  have weights : (0 : ℚ) < weightLength := cast_pos.mpr someWeight
  refine rounded.roundTo_le (by decide) (div_pos (float_pos bytes) (float_pos weights)) ?_
  rw [div_le_iff₀ (float_pos weights)]
  calc
    float remain ≤ remain * (1 + 1 / 2 ^ 24) := (float_bounds bytes).2
    _ ≤ bound * (weightLength * (1 - 1 / 2 ^ 24)) := room
    _ ≤ bound * float weightLength := mul_le_mul_of_nonneg_left (float_bounds weights).1 positive.le

theorem bytesForWeight_le_of_exact (someByte : 0 < remain) (someWeight : 0 < weightLength) (fewBytes : remain ≤ 2 ^ 24)
    (fewWeights : weightLength ≤ 2 ^ 24) (room : (remain : ℚ) ≤ bound * weightLength) :
    bytesForWeight remain weightLength ≤ bound := by
  have bytes : (0 : ℚ) < remain := cast_pos.mpr someByte
  have weights : (0 : ℚ) < weightLength := cast_pos.mpr someWeight
  refine rounded.roundTo_le (by decide) (div_pos (float_pos bytes) (float_pos weights)) ?_
  rw [float_natCast fewBytes, float_natCast fewWeights, div_le_iff₀ weights]
  exact room

theorem le_bytesForWeight_of_exact (positive : 0 < bound) (someWeight : 0 < weightLength) (fewBytes : remain ≤ 2 ^ 24)
    (fewWeights : weightLength ≤ 2 ^ 24) (room : bound * weightLength ≤ (remain : ℚ)) :
    bound ≤ bytesForWeight remain weightLength := by
  have weights : (0 : ℚ) < weightLength := cast_pos.mpr someWeight
  refine rounded.le_roundTo (by decide) positive ?_
  rw [float_natCast fewBytes, float_natCast fewWeights, le_div_iff₀ weights]
  exact room

end

end Guess

/-! ## What is found -/

section Found

variable {weightLength bits : Nat}

theorem tableAndCodes_le (small : bits ≤ 8) (weightLength : Nat) :
    tableAndCodes weightLength bits ≤ weightLength + 257 := by
  have table : 2 ^ bits ≤ 2 ^ 8 := Nat.pow_le_pow_right Nat.two_pos small
  have codes : weightLength * bits ≤ weightLength * 8 := mul_le_mul_left _ small
  unfold tableAndCodes UP_DIV
  omega

theorem tableAndCodes_pos (weightLength bits : Nat) : 0 < tableAndCodes weightLength bits :=
  Nat.add_pos_left (Nat.two_pow_pos bits) _

/-- The shift is defined if there are less than four bytes for each weight. -/
theorem guessBits_lt_iff (small : bits ≤ 8) (someWeight : 0 < weightLength) :
    guessBits (tableAndCodes weightLength bits) weightLength < 32 ↔
      tableAndCodes weightLength bits < 4 * weightLength := by
  have someByte := tableAndCodes_pos weightLength bits
  have fewBytes := tableAndCodes_le small weightLength
  generalize tableAndCodes weightLength bits = remain at someByte fewBytes ⊢
  have weights : (1 : ℚ) ≤ weightLength := one_le_cast.mpr someWeight
  rw [← not_le, ← not_le, not_iff_not, le_guessBits_iff someByte someWeight]
  constructor
  · intro isLarge
    by_contra less
    rw [not_le] at less
    have lessCast : (remain : ℚ) + 1 ≤ 4 * weightLength := by exact_mod_cast less
    have bound : bytesForWeight remain weightLength ≤ ((2 ^ 18 - 1 : Nat) : ℚ) * 2 ^ (-16 : Int) := by
      rcases lt_or_ge weightLength (2 ^ 16) with few | many
      · have fewCast : (weightLength : ℚ) ≤ 2 ^ 16 := by exact_mod_cast few.le
        refine bytesForWeight_le_of_exact ⟨_, _, by norm_num, rfl⟩ someByte someWeight
          (by omega) (by omega) ?_
        norm_num
        linarith
      · have manyCast : (2 : ℚ) ^ 16 ≤ weightLength := by exact_mod_cast many
        have fewCast : (remain : ℚ) ≤ weightLength + 257 := by exact_mod_cast fewBytes
        refine bytesForWeight_le ⟨_, _, by norm_num, rfl⟩ (by norm_num) someByte someWeight ?_
        norm_num
        linarith
    norm_num at isLarge bound
    linarith
  · intro isLarge
    have largeCast : (4 : ℚ) * weightLength ≤ remain := by exact_mod_cast isLarge
    have four : IsRounded 24 ((4 : Nat) : ℚ) := isRounded_natCast (by norm_num)
    have found := @le_bytesForWeight_of_exact remain weightLength _ four (by norm_num) someWeight
        (by omega) (by omega) (by push_cast; exact largeCast)
    norm_num at found ⊢
    exact found

/-- More than two bytes for each weight are only there for few weights. -/
theorem bytesForWeight_le_two (many : 65535 < weightLength) {remain : Nat}
    (someByte : 0 < remain) (fewBytes : remain ≤ weightLength + 261) :
    bytesForWeight remain weightLength ≤ 2 := by
  have manyCast : (65536 : ℚ) ≤ weightLength := by exact_mod_cast many
  have fewCast : (remain : ℚ) ≤ weightLength + 261 := by exact_mod_cast fewBytes
  have two : IsRounded 24 ((2 : Nat) : ℚ) := isRounded_natCast (by norm_num)
  refine bytesForWeight_le two two_pos someByte (by omega) ?_
  norm_num
  linarith

/-- The search over all widths. -/
def searchBits (weightLength remain : Nat) : Option Nat :=
  (List.range' 2 7).find? fun i => codeBytes weightLength i == some remain

theorem searchBits_eq (least : 2 ≤ bits) (small : bits ≤ 8) (isInt : weightLength < 2 ^ 31) :
    searchBits weightLength (tableAndCodes weightLength bits) = some bits := by
  have isCode (i : Nat) (few : i ≤ 8) :
      codeBytes weightLength i = some (tableAndCodes weightLength i) :=
    codeBytes_eq isInt (few.trans_lt (by decide))
  cases found : searchBits weightLength (tableAndCodes weightLength bits) with
  | none =>
    have notFound := List.find?_eq_none.mp found bits (List.mem_range'_1.mpr ⟨least, by omega⟩)
    rw [isCode bits small] at notFound
    exact absurd (beq_self_eq_true _) notFound
  | some i =>
    have inRange := List.mem_range'_1.mp (List.mem_of_find?_eq_some found)
    have isFound : (List.range' 2 7).find? (fun i =>
            codeBytes weightLength i == some (tableAndCodes weightLength bits)) =
          some i :=
      found
    have isPred := List.find?_some isFound
    have same := eq_of_beq isPred
    rw [isCode i (by omega), some.injEq] at same
    rw [(tableAndCodes_strictMono weightLength).injective same]

theorem searchBits_eq_none (many : 65535 < weightLength) (isInt : weightLength < 2 ^ 31)
    (bits : Nat) : searchBits weightLength (tableAndCodes weightLength bits + 4) = none := by
  refine List.find?_eq_none.mpr fun i member => ?_
  have inRange := List.mem_range'_1.mp member
  rw [codeBytes_eq isInt (by omega), beq_iff_eq, some.injEq]
  exact tableAndCodes_gap many bits

/-- With the right header the width is found, unless there are very few weights. -/
theorem bitsOfRemain_eq_iff (least : 2 ≤ bits) (small : bits ≤ 8)
    (someWeight : 0 < weightLength) (isInt : weightLength < 2 ^ 31) :
    bitsOfRemain weightLength (tableAndCodes weightLength bits) = some bits ↔
      tableAndCodes weightLength bits < 4 * weightLength := by
  rw [← guessBits_lt_iff small someWeight]
  have search := searchBits_eq least small isInt
  have fewBytes := tableAndCodes_le small weightLength
  have someByte := tableAndCodes_pos weightLength bits
  have guess :=
    @le_guessBits_iff (tableAndCodes weightLength bits) weightLength someByte someWeight 31
  have injective := (tableAndCodes_strictMono weightLength).injective
  unfold bitsOfRemain
  unfold searchBits at search
  dsimp only
  rw [search, getD_some]
  generalize guessBits (tableAndCodes weightLength bits) weightLength = guessed at guess ⊢
  constructor
  · intro isFound
    by_contra tooLarge
    have noShift : codeBytes weightLength guessed = none := by
      rw [codeBytes, shiftOne, if_neg (by omega), if_neg (by omega), map_none]
    rw [noShift] at isFound
    nomatch isFound
  · intro inRange
    rcases lt_or_ge guessed 31 with isShift | isLast
    · rw [codeBytes_eq isInt isShift, map_some]
      split_ifs with differs
      · rfl
      · rw [injective (not_not.mp differs)]
    · -- The sign makes the sum too large.
      have isSign : guessed = 31 := by omega
      have fewWeights : weightLength ≤ 65535 := by
        by_contra many
        have bound := bytesForWeight_le_two (not_le.mp many) someByte (by omega)
        have atLeast := guess.mp isLast
        norm_num at atLeast
        linarith
      have differs : (2 ^ 64 - 2 ^ 31 + UP_DIV (weightLength * 31) 8) % 2 ^ 64 ≠
            tableAndCodes weightLength bits := by
        have noCarry : 2 ^ 64 - 2 ^ 31 + UP_DIV (weightLength * 31) 8 < 2 ^ 64 := by
          unfold UP_DIV
          omega
        rw [mod_eq_of_lt noCarry]
        omega
      rw [isSign, codeBytes, shiftOne, if_neg (by decide), if_pos rfl, map_some,
        map_some, if_pos differs]

theorem bytesForWeight_add_four_le (small : bits ≤ 8) (many : 65535 < weightLength) :
    bytesForWeight (tableAndCodes weightLength bits + 4) weightLength ≤ bits / 8 + 1 / 16 := by
  have table : 2 ^ bits ≤ 2 ^ 8 := Nat.pow_le_pow_right Nat.two_pos small
  have bytes : 8 * (tableAndCodes weightLength bits + 4) ≤ weightLength * bits + 2087 := by
    unfold tableAndCodes UP_DIV
    omega
  have codes : weightLength * bits ≤ weightLength * 8 := mul_le_mul_left _ small
  have someByte : 0 < tableAndCodes weightLength bits + 4 := succ_pos _
  generalize tableAndCodes weightLength bits + 4 = remain at bytes someByte ⊢
  obtain ⟨product, isProduct⟩ : ∃ product, weightLength * bits = product := ⟨_, rfl⟩
  have productCast : (weightLength : ℚ) * bits = product := by exact_mod_cast isProduct
  rw [isProduct] at bytes codes
  have bytesCast : (8 : ℚ) * remain ≤ product + 2087 := by exact_mod_cast bytes
  have codesCast : (product : ℚ) ≤ weightLength * 8 := by exact_mod_cast codes
  have manyCast : (65536 : ℚ) ≤ weightLength := by exact_mod_cast many
  have rounded : IsRounded 24 ((bits : ℚ) / 8 + 1 / 16) := by
    refine ⟨2 * bits + 1, -4, by omega, ?_⟩
    push_cast
    norm_num
    ring
  refine bytesForWeight_le rounded (by positivity) someByte (by omega) ?_
  have atBound :
      ((bits : ℚ) / 8 + 1 / 16) * (weightLength * (1 - 1 / 2 ^ 24)) =
        (product / 8 + weightLength / 16) * (1 - 1 / 2 ^ 24) := by
    rw [← productCast]
    ring
  rw [atBound]
  norm_num
  linarith

/-- With four bytes too many, what has been guessed is returned. -/
theorem bitsOfRemain_add_four_eq_iff (least : 2 ≤ bits) (small : bits ≤ 8)
    (many : 65535 < weightLength) (isInt : weightLength < 2 ^ 31) :
    bitsOfRemain weightLength (tableAndCodes weightLength bits + 4) = some bits ↔
      (bits : ℚ) / 8 ≤ bytesForWeight (tableAndCodes weightLength bits + 4) weightLength := by
  have someWeight : 0 < weightLength := by omega
  have search := searchBits_eq_none many isInt bits
  have fewBytes := tableAndCodes_le small weightLength
  have someByte : 0 < tableAndCodes weightLength bits + 4 := succ_pos _
  have guess (bits' : Nat) :=
    @le_guessBits_iff (tableAndCodes weightLength bits + 4) weightLength someByte someWeight bits'
  have notMore : ¬bits + 1 ≤ guessBits (tableAndCodes weightLength bits + 4) weightLength := by
    rw [guess, not_le]
    have bound := bytesForWeight_add_four_le small many
    push_cast
    linarith
  have isShift : guessBits (tableAndCodes weightLength bits + 4) weightLength < 31 := by omega
  unfold bitsOfRemain
  unfold searchBits at search
  dsimp only
  rw [search, getD_none, codeBytes_eq isInt isShift, map_some, ite_self,
    some.injEq, ← guess]
  omega

end Found

/-! ## Shapes -/

/-- The shape of a convolution, whose sizes are `int`s. -/
structure ConvShape where
  inputCount : Nat
  outputCount : Nat
  kernelX : Nat
  kernelY : Nat
  someInput : 0 < inputCount
  someOutput : 0 < outputCount
  someX : 0 < kernelX
  someY : 0 < kernelY
  area_lt : inputCount * kernelX * kernelY < 2 ^ 31
  output_lt : outputCount < 2 ^ 31

namespace ConvShape

variable (shape : ConvShape)

/-- The weights of an output. -/
def kernel : Kernel where
  area := shape.inputCount * shape.kernelX * shape.kernelY
  channel := shape.outputCount
  area_lt := shape.area_lt
  channel_lt := shape.output_lt

def weightLength : Nat := shape.inputCount * shape.outputCount * shape.kernelX * shape.kernelY

/-- The convolution, with its codes at some place of a file. -/
def stored (buffer : List Byte) (offset : Nat) (sizes : List Nat) : ExternalConv where
  inputCount := shape.inputCount
  outputCount := shape.outputCount
  kernelX := shape.kernelX
  kernelY := shape.kernelY
  external := some (offset :: buffer.length :: sizes)
  quanType := some 1

/-- Only the writer needs four bytes for each size. -/
def HeaderDiffers : Prop :=
  shape.inputCount ≤ 65535 ∧ shape.outputCount ≤ 65535 ∧
    65535 < shape.inputCount * shape.kernelX * shape.kernelY

instance : Decidable shape.HeaderDiffers :=
  inferInstanceAs (Decidable (_ ∧ _ ∧ _))

/-- The condition under which the width is found. -/
def BitsFound (bits : Nat) : Prop :=
  if shape.HeaderDiffers then
    (bits : ℚ) / 8 ≤ bytesForWeight (tableAndCodes shape.weightLength bits + 4) shape.weightLength
  else
    tableAndCodes shape.weightLength bits < 4 * shape.weightLength

variable {shape}

theorem area_mul_channel : shape.kernel.area * shape.kernel.channel = shape.weightLength := by
  show shape.inputCount * shape.kernelX * shape.kernelY * shape.outputCount = _
  rw [weightLength]
  ring

theorem weightLength_pos : 0 < shape.weightLength :=
  mul_pos (mul_pos (mul_pos shape.someInput shape.someOutput) shape.someX) shape.someY

theorem getQuantBit_stored {bits : Nat} {buffer : List Byte} {offset : Nat} {sizes : List Nat}
    {header : Nat}
    (hasLength :
      buffer.length = 1 + (if shape.outputCount > 65535 ∨
              shape.inputCount * shape.kernelX * shape.kernelY > 65535 then 8 else 4) + 1 +
          tableAndCodes shape.weightLength bits)
    (isHeader : header = if shape.HeaderDiffers then 4 else 0) (isInt : buffer.length < 2 ^ 64) :
    getQuantBitFromExternalFile (shape.stored buffer offset sizes) =
      bitsOfRemain shape.weightLength (tableAndCodes shape.weightLength bits + header) := by
  have someWeight := shape.weightLength_pos
  have input : shape.inputCount ≤ shape.inputCount * shape.kernelX * shape.kernelY := by
    rw [mul_assoc]
    exact Nat.le_mul_of_pos_right _ (mul_pos shape.someX shape.someY)
  have remain : (buffer.length + 2 ^ 64 -
          (1 + (if shape.inputCount > 65535 ∨ shape.outputCount > 65535 then 8 else 4) + 1)) %
          2 ^ 64 =
        tableAndCodes shape.weightLength bits + header := by
    by_cases differs : shape.HeaderDiffers
    · rw [if_pos differs] at isHeader
      rcases differs with ⟨fewInputs, fewOutputs, manyWeights⟩
      rw [if_pos (Or.inr manyWeights)] at hasLength
      rw [if_neg (by omega)]
      omega
    · have same :
          ¬(shape.inputCount ≤ 65535 ∧ shape.outputCount ≤ 65535 ∧
            65535 < shape.inputCount * shape.kernelX * shape.kernelY) :=
        differs
      rw [if_neg differs] at isHeader
      split_ifs at hasLength ⊢ <;> omega
  unfold getQuantBitFromExternalFile stored
  dsimp only
  rw [if_neg (by decide), if_neg (by decide), remain]
  exact if_neg someWeight.ne'

/-- The width is found exactly under this condition. -/
theorem getQuantBitFromExternalFile_iff {F : Type} (ops : FloatOps F) (shape : ConvShape)
    (tensor : FloatTensor F) (bits : Nat) (least : 2 ≤ bits) (small : bits ≤ 8)
    (buffer : List Byte) (shapeInt32 : Bool)
    (isWritten : WriteCQBlobs ops shape.kernel tensor bits = some (buffer, shapeInt32))
    (offset : Nat) (sizes : List Nat) :
    getQuantBitFromExternalFile (shape.stored buffer offset sizes) = some bits ↔
      shape.BitsFound bits := by
  rcases length_WriteCQBlobs (by omega) small isWritten with ⟨isInt, hasLength⟩
  rw [area_mul_channel] at isInt hasLength
  have bound := tableAndCodes_le small shape.weightLength
  have fewBytes : buffer.length < 2 ^ 64 := by
    unfold tableAndCodes at bound
    rw [hasLength]
    split_ifs <;> omega
  unfold BitsFound
  by_cases differs : shape.HeaderDiffers
  · have many : 65535 < shape.weightLength := by
      calc
        65535 < shape.kernel.area := differs.2.2
        _ ≤ shape.kernel.area * shape.kernel.channel := Nat.le_mul_of_pos_right _ shape.someOutput
        _ = shape.weightLength := area_mul_channel
    rw [if_pos differs, getQuantBit_stored hasLength (if_pos differs).symm fewBytes]
    exact bitsOfRemain_add_four_eq_iff least small many isInt
  · rw [if_neg differs, getQuantBit_stored hasLength (if_neg differs).symm fewBytes]
    exact bitsOfRemain_eq_iff least small shape.weightLength_pos isInt

/-! ## Vectors -/

/-- One output of so many inputs. -/
def vector (inputCount : Nat) (someInput : 0 < inputCount) (isInt : inputCount < 2 ^ 31) :
    ConvShape where
  inputCount := inputCount
  outputCount := 1
  kernelX := 1
  kernelY := 1
  someInput := someInput
  someOutput := Nat.one_pos
  someX := Nat.one_pos
  someY := Nat.one_pos
  area_lt := by rwa [mul_one, mul_one]
  output_lt := by decide

/-- Weights that are zero, with the scale one. -/
def zeroTensor : FloatTensor ℚ where
  weightData _ := 0
  alphaData _ := 1
  asymmetricQuantFlag := false

theorem exists_written {shape : ConvShape} (isInt : shape.weightLength < 2 ^ 31) {bits : Nat}
    (least : 2 ≤ bits) (small : bits ≤ 8) :
    ∃ buffer shapeInt32,
      WriteCQBlobs (exactOps ℚ) shape.kernel zeroTensor bits = some (buffer, shapeInt32) := by
  rw [← area_mul_channel] at isInt
  rcases WriteCQBlobs_roundTrips (exactOps ℚ) zeroTensor (by omega) small isInt with
    ⟨buffer, shapeInt32, isWritten, -⟩
  exact ⟨buffer, shapeInt32, isWritten⟩

/-- For 85 weights of eight bits a one is shifted by 32 bits. -/
theorem vector_not_found :
    ¬∀ (shape : ConvShape) (tensor : FloatTensor ℚ) (bits : Nat), 2 ≤ bits → bits ≤ 8 →
        ∀ (buffer : List Byte) (shapeInt32 : Bool),
          WriteCQBlobs (exactOps ℚ) shape.kernel tensor bits = some (buffer, shapeInt32) →
            ∀ (offset : Nat) (sizes : List Nat),
              getQuantBitFromExternalFile (shape.stored buffer offset sizes) = some bits := by
  intro claimed
  obtain ⟨shape, isShape⟩ : ∃ shape, vector 85 (by decide) (by decide) = shape := ⟨_, rfl⟩
  have weights : shape.weightLength = 85 := by rw [← isShape]; rfl
  have sameHeader : ¬shape.HeaderDiffers := by rw [← isShape]; decide
  have isInt : shape.weightLength < 2 ^ 31 := by rw [weights]; decide
  rcases @exists_written shape isInt 8 (by decide) (by decide) with
    ⟨buffer, shapeInt32, isWritten⟩
  have found := claimed shape zeroTensor 8 (by decide) (by decide) buffer shapeInt32 isWritten 0 []
  rcases length_WriteCQBlobs (by decide) (by decide) isWritten with ⟨-, hasLength⟩
  rw [area_mul_channel] at hasLength
  have fewBytes : buffer.length < 2 ^ 64 := by
    rw [hasLength, weights]
    unfold UP_DIV
    split_ifs <;> omega
  rw [getQuantBit_stored hasLength (if_neg sameHeader).symm fewBytes] at found
  have bound := (bitsOfRemain_eq_iff (by decide) (by decide) shape.weightLength_pos isInt).mp found
  rw [weights] at bound
  exact absurd bound (by decide)

/-- The width of 128 weights. -/
theorem getQuantBitFromExternalFile_iff_vector :
    ∃ buffer shapeInt32,
      WriteCQBlobs (exactOps ℚ) (vector 128 (by decide) (by decide)).kernel zeroTensor 8 =
          some (buffer, shapeInt32) ∧
        (getQuantBitFromExternalFile ((vector 128 (by decide) (by decide)).stored buffer 0 []) =
            some 8 ↔
          (vector 128 (by decide) (by decide)).BitsFound 8) := by
  have isInt : (vector 128 (by decide) (by decide)).weightLength < 2 ^ 31 := by decide
  rcases exists_written isInt (show 2 ≤ 8 by decide) (by decide) with
    ⟨buffer, shapeInt32, isWritten⟩
  exact ⟨buffer, shapeInt32, isWritten,
      getQuantBitFromExternalFile_iff (exactOps ℚ) (vector 128 (by decide) (by decide))
        zeroTensor 8 (by decide) (by decide) buffer shapeInt32 isWritten 0 []⟩

end ConvShape

end Mnn.Core.IDST
