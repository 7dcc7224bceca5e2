import Mnn.Foundation.BitFields

/-!
# Raw images of arrays

An array is written as the bytes of its elements, one behind the other, and all elements
have the same number of bytes.  A reader that knows how many there are gets them back.
-/

namespace Mnn.Foundation.RawImages

open BitFields
open List

/-- Values with a fixed number of bytes. -/
class Plain (α : Type) where
  width : Nat
  width_pos : 0 < width
  toImage : α → List Byte
  ofImage : List Byte → α
  length_toImage : ∀ value, (toImage value).length = width
  ofImage_toImage : ∀ value, ofImage (toImage value) = value

/-- Whole bytes, the low byte first. -/
@[reducible]
def plainBits (width : Nat) (pos : 0 < width) : Plain (BitVec (8 * width)) where
  width := width
  width_pos := pos
  toImage value := toBytes width value.toNat
  ofImage bytes := BitVec.ofNat (8 * width) (ofBytes bytes)
  length_toImage value := length_toBytes width value.toNat
  ofImage_toImage value := by
    have fits : value.toNat < 256 ^ width := by
      have less := value.isLt
      rwa [Nat.pow_mul] at less
    rw [ofBytes_toBytes fits, BitVec.ofNat_toNat, BitVec.setWidth_eq]

instance : Plain (BitVec 8) :=
  plainBits 1 (Nat.succ_pos 0)

instance : Plain (BitVec 16) :=
  plainBits 2 (Nat.succ_pos 1)

instance : Plain (BitVec 32) :=
  plainBits 4 (Nat.succ_pos 3)

variable {α : Type} [Plain α]

def image (values : List α) : List Byte := values.flatMap Plain.toImage

/-- The first so many values of some bytes. -/
def ofImages (α : Type) [Plain α] : Nat → List Byte → List α
  | 0, _ => []
  | count + 1, bytes =>
    Plain.ofImage (bytes.take (Plain.width α)) :: ofImages α count (bytes.drop (Plain.width α))

@[simp]
theorem image_nil : image ([] : List α) = [] :=
  rfl

theorem image_cons (value : α) (values : List α) :
    image (value :: values) = Plain.toImage value ++ image values :=
  flatMap_cons

@[simp]
theorem length_image (values : List α) : (image values).length = values.length * Plain.width α := by
  induction values with
  | nil => rw [image_nil, length_nil, length_nil, zero_mul]
  | cons value values ih =>
    rw [image_cons, length_append, Plain.length_toImage, ih,
      length_cons, Nat.succ_mul, add_comm]

theorem image_eq_nil {values : List α} : image values = [] ↔ values = [] := by
  rw [← length_eq_zero_iff, length_image, mul_eq_zero, length_eq_zero_iff,
    or_iff_left (ne_of_gt Plain.width_pos)]

theorem ofImages_image (values : List α) (rest : List Byte) :
    ofImages α values.length (image values ++ rest) = values := by
  induction values with
  | nil => rfl
  | cons value values ih =>
    have width := Plain.length_toImage value
    rw [length_cons, ofImages, image_cons, append_assoc,
      take_left' width, drop_left' width, Plain.ofImage_toImage, ih]

end Mnn.Foundation.RawImages
