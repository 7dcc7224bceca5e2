import Mathlib

/-!
# Bit fields in bytes

The bits of a list of bytes are counted from the high bit of the first byte.
Numbers of the same width lie one behind the other in them, each from its high
bit to its low bit.
-/

variable {width i : Nat}

namespace Mnn.Foundation.BitFields

abbrev Byte := BitVec 8

/-- A bit behind the last byte is zero. -/
def bit (buf : List Byte) (n : Nat) : Bool := (buf[n / 8]?.getD 0).getMsbD (n % 8)

/-- The field of some width, from the `start`-th bit on, has this value. -/
def FieldAt (buf : List Byte) (width start : Nat) (value : Byte) : Prop :=
  ∀ j < 8, value.getLsbD j = (decide (j < width) && bit buf (start + (width - 1 - j)))

/-- What is in the lower bits. -/
def mask (width : Nat) : Byte := (1 <<< width) - 1

theorem bit_replicate_zero (length n : Nat) : bit (List.replicate length 0) n = false := by
  unfold bit
  rw [List.getElem?_replicate]
  split
  · exact BitVec.getMsbD_zero
  · exact BitVec.getMsbD_zero

variable {buf : List Byte}

theorem bit_modify {index : Nat} (inBuffer : index < buf.length) (value : Byte) (n : Nat) :
    bit (buf.modify index (· ||| value)) n =
      (bit buf n || decide (n / 8 = index) && value.getMsbD (n % 8)) := by
  unfold bit
  rw [List.getElem?_modify]
  by_cases here : index = n / 8
  · subst here
    rw [List.getElem?_eq_getElem inBuffer]
    simp
  · have elsewhere : n / 8 ≠ index := fun same => here same.symm
    simp [here, elsewhere]

theorem getLsbD_mask (small : width ≤ 8) {j : Nat} (low : j < 8) :
    (mask width).getLsbD j = decide (j < width) := by
  have table :
      ∀ width : Fin 9, ∀ j : Fin 8, (mask width).getLsbD j = decide (j.val < width.val) := by
    decide
  exact table ⟨width, Nat.lt_succ_of_le small⟩ ⟨j, low⟩

theorem and_mask_of_lt (small : width ≤ 8) {value : Byte} (fits : value.toNat < 2 ^ width) :
    value &&& mask width = value := by
  apply BitVec.eq_of_getLsbD_eq
  intro j low
  rw [BitVec.getLsbD_and, getLsbD_mask small low]
  by_cases inWidth : j < width
  · simp [inWidth]
  · have high : 2 ^ width ≤ 2 ^ j := Nat.pow_le_pow_right (by decide) (Nat.le_of_not_lt inWidth)
    have zero : value.getLsbD j = false := by
      rw [BitVec.getLsbD]
      exact Nat.testBit_lt_two_pow (lt_of_lt_of_le fits high)
    rw [zero, Bool.false_and]

/-! ## Fields -/

theorem FieldAt.unique {start : Nat} {value value' : Byte} (field : FieldAt buf width start value)
    (field' : FieldAt buf width start value') :
    value = value' := by
  apply BitVec.eq_of_getLsbD_eq
  intro j low
  rw [field j low, field' j low]

theorem fieldAt_byte (inBuffer : i < buf.length) :
    FieldAt buf 8 (i * 8) buf[i] := by
  intro j low
  have place : i * 8 + (8 - 1 - j) = 8 * i + (7 - j) := by omega
  have index : (8 * i + (7 - j)) / 8 = i := by omega
  have rest : (8 * i + (7 - j)) % 8 = 7 - j := by omega
  rw [place, bit, index, rest, List.getElem?_eq_getElem inBuffer,
    Option.getD_some, BitVec.getMsbD_eq_getLsbD]
  have back : 8 - 1 - (7 - j) = j := by omega
  have inByte : 7 - j < 8 := by omega
  simp [low, back, inByte]

theorem fieldAt_high (inBuffer : i < buf.length) :
    FieldAt buf 4 (2 * i * 4) (buf[i] >>> 4) := by
  intro j low
  rw [BitVec.getLsbD_ushiftRight]
  by_cases inWidth : j < 4
  · have byte := fieldAt_byte inBuffer (4 + j) (by omega)
    have place : i * 8 + (8 - 1 - (4 + j)) = 2 * i * 4 + (4 - 1 - j) := by omega
    rw [byte, place]
    simp [inWidth, show 4 + j < 8 by omega]
  · rw [BitVec.getLsbD_of_ge _ _ (by omega)]
    simp [inWidth]

theorem fieldAt_low (inBuffer : i < buf.length) :
    FieldAt buf 4 ((2 * i + 1) * 4) (buf[i] &&& mask 4) := by
  intro j low
  rw [BitVec.getLsbD_and, getLsbD_mask (by decide) low]
  by_cases inWidth : j < 4
  · have byte := fieldAt_byte inBuffer j low
    have place : i * 8 + (8 - 1 - j) = (2 * i + 1) * 4 + (4 - 1 - j) := by omega
    rw [byte, place]
    simp [inWidth, low]
  · simp [inWidth]

/-! ## Numbers in bytes -/

/-- The low byte comes first. -/
def toBytes : Nat → Nat → List Byte
  | 0, _ => []
  | count + 1, number => BitVec.ofNat 8 number :: toBytes count (number / 256)

def ofBytes : List Byte → Nat
  | [] => 0
  | byte :: bytes => byte.toNat + 256 * ofBytes bytes

@[simp]
theorem length_toBytes (count number : Nat) : (toBytes count number).length = count := by
  induction count generalizing number with
  | zero => rfl
  | succ count ih =>
    rw [toBytes, List.length_cons, ih]

theorem ofBytes_toBytes {count number : Nat} (fits : number < 256 ^ count) :
    ofBytes (toBytes count number) = number := by
  induction count generalizing number with
  | zero =>
    rw [pow_zero] at fits
    exact (Nat.lt_one_iff.mp fits).symm
  | succ count ih =>
    have quotient : number / 256 < 256 ^ count := by
      rw [pow_succ, mul_comm] at fits
      exact Nat.div_lt_of_lt_mul fits
    rw [toBytes, ofBytes, ih quotient, BitVec.toNat_ofNat]
    exact Nat.mod_add_div number 256

theorem ofBytes_lt (bytes : List Byte) : ofBytes bytes < 256 ^ bytes.length := by
  induction bytes with
  | nil => exact one_pos
  | cons byte bytes ih =>
    have small : byte.toNat < 256 := byte.isLt
    rw [ofBytes, List.length_cons, pow_succ]
    omega

theorem toBytes_ofBytes (bytes : List Byte) : toBytes bytes.length (ofBytes bytes) = bytes := by
  induction bytes with
  | nil => rfl
  | cons byte bytes ih =>
    have small : byte.toNat < 256 := byte.isLt
    have quotient : (byte.toNat + 256 * ofBytes bytes) / 256 = ofBytes bytes := by
      omega
    rw [ofBytes, List.length_cons, toBytes, quotient, ih, List.cons.injEq]
    refine ⟨BitVec.eq_of_toNat_eq ?_, rfl⟩
    rw [BitVec.toNat_ofNat]
    omega

end Mnn.Foundation.BitFields
