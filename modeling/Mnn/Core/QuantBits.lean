import Mnn.Core.IDSTDense
import Mnn.Foundation.BinaryRounding

/-!
# The bit width of external weights

`getQuantBitFromExternalFile` computes the width of the codes from the number of
bytes that they have in the file.  It takes off the header, guesses the width from
the number of bytes for each weight, and looks for a better one if the guess does not
give that number of bytes.  `float` is rounded as it is in IEEE arithmetic; a shift by
more bits than there are has no result.
-/

variable {buf buf' arr : List Byte} {iNeedBits : Nat}

namespace Mnn.Core.IDST

open Mnn.Foundation BitFields BinaryRounding
open List
open Option

/-- A `float` has 24 digits. -/
def float (x : ℚ) : ℚ := roundTo 24 x

/-- The fields of an operation which are looked at. -/
structure ExternalConv where
  inputCount : Nat
  outputCount : Nat
  kernelX : Nat
  kernelY : Nat
  external : Option (List Nat)
  /-- The type of `quanParameter`, if it is there. -/
  quanType : Option Nat

def UP_DIV (x y : Nat) : Nat := (x + y - 1) / y

/-- `1 << bits`, as it is added to a `size_t`; the last bit is the sign of an `int`. -/
def shiftOne (bits : Nat) : Option Nat :=
  if bits < 31 then
    some (2 ^ bits)
  else if bits = 31 then
    some (2 ^ 64 - 2 ^ 31)
  else
    none

/-- `(1<<bits) + UP_DIV(weightLength * bits, 8)` -/
def codeBytes (weightLength bits : Nat) : Option Nat :=
  (shiftOne bits).map fun table => (table + UP_DIV (weightLength * bits) 8) % 2 ^ 64

/-- `floorf((float)(remain) / (float)weightLength * 8.0f)` -/
def guessBits (remain weightLength : Nat) : Nat :=
  ⌊float (float (float remain / float weightLength) * 8)⌋.toNat

/-- The bits, from what remains behind the header. -/
def bitsOfRemain (weightLength remain : Nat) : Option Nat :=
  let bits := guessBits remain weightLength
  (codeBytes weightLength bits).map fun bytes =>
    if bytes ≠ remain then
      ((List.range' 2 7).find? fun i => codeBytes weightLength i == some remain).getD bits
    else
      bits

/-- Dividing by no weights has no result. -/
def getQuantBitFromExternalFile (conv : ExternalConv) : Option Nat :=
  match conv.external, conv.quanType with
  | some (_ :: buffer_size :: _), some type =>
    if type = 4 then
      some 8
    else if type ≠ 1 then
      some 0
    else
      let weightLength :=
        conv.inputCount * conv.outputCount * conv.kernelX * conv.kernelY
      let upperBound :=
        1 + (if conv.inputCount > 65535 ∨ conv.outputCount > 65535 then 8 else 4) + 1
      let remain := (buffer_size + 2 ^ 64 - upperBound) % 2 ^ 64
      if weightLength = 0 then none else bitsOfRemain weightLength remain
  | _, _ => some 0

/-! ## How much is written -/

theorem length_orByte {index : Nat} {value : Byte}
    (isOr : orByte buf index value = some buf') : buf'.length = buf.length := by
  unfold orByte at isOr
  split at isOr
  · cases isOr
    exact length_modify ..
  · nomatch isOr

theorem length_putValue {cursor : BitCursor}
    {value : Byte} (isPut : putValue iNeedBits buf cursor value = some buf') :
    buf'.length = buf.length := by
  unfold putValue at isPut
  dsimp only at isPut
  split at isPut
  · rcases bind_eq_some_iff.mp isPut with ⟨middle, first, second⟩
    exact (length_orByte second).trans (length_orByte first)
  · exact length_orByte isPut

theorem length_fillFrom {cursor : BitCursor}
    (isFilled : fillFrom iNeedBits arr buf cursor = some buf') : buf'.length = buf.length := by
  induction arr generalizing buf cursor with
  | nil =>
    cases isFilled
    rfl
  | cons value arr ih =>
    rcases bind_eq_some_iff.mp isFilled with ⟨middle, isPut, isRest⟩
    exact (ih isRest).trans (length_putValue isPut)

theorem length_FillBuffer {buf_len : Nat}
    (isFilled : FillBuffer buf_len arr iNeedBits = some buf) : buf.length = buf_len := by
  rw [length_fillFrom isFilled, length_replicate]

theorem length_WriteBlobDim (channel area : Nat) :
    (WriteBlobDim [channel, area]).1.length =
      1 + if channel > 65535 ∨ area > 65535 then 8 else 4 := by
  have wide :
      ([channel, area].any fun dim => dim > 2 ^ 16 - 1) =
        decide (channel > 65535 ∨ area > 65535) := by
    simp
  rw [WriteBlobDim, wide]
  by_cases large : channel > 65535 ∨ area > 65535
  · simp [large, length_toBytes]
  · simp [large, length_toBytes]

/-- What `WriteCQBlobs` writes: the shape, the values and the codes. -/
theorem length_WriteCQBlobs {F : Type} {ops : FloatOps F} {kernel : Kernel}
    {tensor : FloatTensor F} {bits : Nat} {buffer : List Byte} {shapeInt32 : Bool}
    (positive : 1 ≤ bits) (small : bits ≤ 8)
    (isWritten : WriteCQBlobs ops kernel tensor bits = some (buffer, shapeInt32)) :
    kernel.area * kernel.channel < 2 ^ 31 ∧ buffer.length =
        1 + (if kernel.channel > 65535 ∨ kernel.area > 65535 then 8 else 4) + 1 +
          (2 ^ bits + UP_DIV (kernel.area * kernel.channel * bits) 8) := by
  have fewBits : ¬bits > 8 := Nat.not_lt.mpr small
  unfold WriteCQBlobs writeValues at isWritten
  simp only [needBits_weightSet positive, if_neg fewBits] at isWritten
  rcases bind_eq_some_iff.mp isWritten with ⟨count, isCount, isWritten⟩
  rcases map_eq_some_iff.mp isWritten with ⟨buf, isFilled, isPair⟩
  unfold Kernel.weightSize at isCount
  split at isCount
  · next isInt =>
    cases isCount
    cases isPair
    refine ⟨isInt, ?_⟩
    rw [length_append, length_append, length_cons, length_map,
      length_weightSet positive, length_FillBuffer isFilled, length_WriteBlobDim, bytesOf,
      UP_DIV, Nat.mul_comm bits]
    omega
  · cases isCount

end Mnn.Core.IDST
