import Mnn.Foundation.WalshHadamard

/-!
# TurboQuant

A block of 32 numbers is rotated by a Walsh-Hadamard transform with signs, and
stored as a scale and the indices of the numbers in a codebook.  Dot products
and weighted sums are taken of the rotated numbers, without rotating a block
back.  Numbers are exact; a block is a function of the offset of a byte.
-/

namespace Mnn.Cpu.TurboQuant

open Mnn.Foundation.WalshHadamard
open List
open Function

abbrev Byte := BitVec 8

/-- The bytes from an offset on. -/
def behind (src : Nat → Byte) (offset : Nat) : Nat → Byte := fun i => src (offset + i)

def TQ3_BLOCK_SIZE : Nat := 32

/-- The signs that randomise the transform. -/
def TQ3_SIGNS : List Int :=
  [1, -1, 1, -1, 1, 1, -1, 1, -1, -1, 1, -1, 1, 1, -1, 1,
    -1, -1, 1, -1, 1, -1, -1, 1, -1, 1, 1, -1, 1, -1, -1, 1]

/-! ## The scale -/

/-- The loop that normalises a subnormal mantissa, which has ten bits. -/
def normalise : Nat → BitVec 32 → BitVec 32 → BitVec 32 × BitVec 32
  | 0, mantissa, exponent => (mantissa, exponent)
  | steps + 1, mantissa, exponent =>
    if mantissa &&& 0x400 = 0 then
      normalise steps (mantissa <<< 1) (exponent - 1)
    else
      (mantissa, exponent)

/-- `tq3_fp16_to_float`, as the bits of the result. -/
def fp16Bits (h : BitVec 16) : BitVec 32 :=
  let sign := (h &&& 0x8000).setWidth 32 <<< 16
  let exponent := ((h >>> 10) &&& 0x1F).setWidth 32
  let mantissa := (h &&& 0x3FF).setWidth 32
  if exponent = 0 ∧ mantissa = 0 then
    sign
  else
    let (mantissa, exponent) :=
      if exponent = 0 then
        let (mantissa, exponent) := normalise 10 mantissa 1
        (mantissa &&& 0x3FF, exponent + 127 - 15)
      else if exponent = 31 then
        (mantissa, 255)
      else
        (mantissa, exponent + 127 - 15)
    sign ||| exponent <<< 23 ||| mantissa <<< 13

section Blocks

variable {K : Type} [Field K]

local instance two_atLeastTwo : Nat.AtLeastTwo 2 := ⟨Nat.le_refl 2⟩

/-- The number that the bits of a `float` stand for, unless it is not finite. -/
def floatOfBits (bits : BitVec 32) : Option K :=
  let exponent : Nat := (bits.toNat / 2 ^ 23) % 2 ^ 8
  let mantissa : Nat := bits.toNat % 2 ^ 23
  let sign : K := if bits.msb then -1 else 1
  if exponent = 255 then
    none
  else if exponent = 0 then
    some (sign * (mantissa : K) * (2 : K) ^ (-149 : Int))
  else
    some (sign * ((2 ^ 23 + mantissa : Nat) : K) * (2 : K) ^ ((exponent : Int) - 150))

def tq3_fp16_to_float (h : BitVec 16) : Option K := floatOfBits (fp16Bits h)

/-- The scale in front of a block. -/
def scaleOf (src : Nat → Byte) : Option K := tq3_fp16_to_float (src 1 ++ src 0)

/-! ## The transform -/

/-- The loops of the butterflies. -/
def butterflies (out : Nat → K) : Nat → K := ((List.range 5).map (2 ^ ·)).foldl (fun out step =>
      ((List.range (TQ3_BLOCK_SIZE / (2 * step))).flatMap fun i =>
          List.range' (i * (2 * step)) step).foldl
        (butterfly step) out)
    out

def signAt (i : Nat) : K := (TQ3_SIGNS.getD i 0 : Int)

/-- `norm` is one over the root of the size. -/
def tq3_wht_forward_32 (norm : K) (input : Nat → K) : Nat → K :=
  let out := butterflies fun i => input i * signAt i
  fun i => out i * norm

def tq3_wht_inverse_32 (norm : K) (input : Nat → K) : Nat → K :=
  let out := butterflies input
  fun i => out i * (norm * signAt i)

/-! ## Blocks of codes -/

/-- How eight indices are packed, in how many bytes, and what they stand for. -/
structure Format (K : Type) where
  groupBytes : Nat
  unpack_8 : (Nat → Byte) → Nat → Nat
  codebook : List K

variable (format : Format K) (norm : K)

/-- The number that index `k` of a group stands for. -/
def Format.lookUp (packed : Nat → Byte) (g k : Nat) : K := format.codebook.getD
    (format.unpack_8 (behind packed (g * format.groupBytes)) k) 0

/-- The places of the indices, in the order of the loops. -/
def places : List (Nat × Nat) := (List.range 4).flatMap fun g => (List.range 8).map fun k => (g, k)

def dequantize_block (src : Nat → Byte) : Option (Nat → K) := (scaleOf src).map fun scale =>
    let rotated : Nat → K :=
      places.foldl (fun rotated (g, k) =>
          update rotated (g * 8 + k) (format.lookUp (behind src 2) g k))
        fun _ => 0
    let reconstructed := tq3_wht_inverse_32 norm rotated
    fun i => reconstructed i * scale

def vec_dot_block (q_rotated : Nat → K) (src : Nat → Byte) : Option K :=
  (scaleOf src).map fun scale =>
    let dot :=
      places.foldl (fun dot (g, k) =>
          dot + q_rotated (g * 8 + k) * format.lookUp (behind src 2) g k)
        0
    dot * scale

def weighted_acc_block (acc_rotated : Nat → K) (w : K) (packed : Nat → Byte) : Nat → K :=
  places.foldl (fun acc (g, k) =>
      update acc (g * 8 + k) (acc (g * 8 + k) + w * format.lookUp packed g k))
    acc_rotated

/-- Blocks are accumulated, each with its weight and its scale. -/
def accumulate (weighted_acc : (Nat → K) → K → (Nat → Byte) → Nat → K)
    (blocks : List (K × (Nat → Byte))) (acc_rotated : Nat → K) :
    Option (Nat → K) :=
  blocks.foldlM (fun acc block =>
      (scaleOf block.2).map fun scale =>
        weighted_acc acc (block.1 * scale) (behind block.2 2))
    acc_rotated

end Blocks

/-! ## Three and four bits -/

section Formats

variable {K : Type} [Field K]

def TQ3_CODEBOOK : List K :=
  [-21519, -13439, -7560, -2451, 2451, 7560, 13439, 21519].map (· / 10000)

def TQ4_CODEBOOK : List K :=
  [-27326, -20690, -16180, -12562, -9423, -6568, -3880, -1284,
      1284, 3880, 6568, 9423, 12562, 16180, 20690, 27326].map (· / 10000)

def tq3_unpack_3bit_8 (src : Nat → Byte) (k : Nat) : Nat :=
  let byte i := (src i).toNat
  [byte 0 &&& 7, (byte 0 >>> 3) &&& 7, (byte 0 >>> 6 ||| byte 1 <<< 2) &&& 7,
      (byte 1 >>> 1) &&& 7, (byte 1 >>> 4) &&& 7,
      (byte 1 >>> 7 ||| byte 2 <<< 1) &&& 7, (byte 2 >>> 2) &&& 7,
      (byte 2 >>> 5) &&& 7].getD k 0

def tq4_unpack_4bit_8 (src : Nat → Byte) (k : Nat) : Nat :=
  let byte i := (src i).toNat
  [byte 0 &&& 0xF, byte 0 >>> 4, byte 1 &&& 0xF, byte 1 >>> 4, byte 2 &&& 0xF,
      byte 2 >>> 4, byte 3 &&& 0xF, byte 3 >>> 4].getD k 0

def tq3 : Format K where
  groupBytes := 3
  unpack_8 := tq3_unpack_3bit_8
  codebook := TQ3_CODEBOOK

def tq4 : Format K where
  groupBytes := 4
  unpack_8 := tq4_unpack_4bit_8
  codebook := TQ4_CODEBOOK

variable (norm : K)

def tq3_dequantize_block : (Nat → Byte) → Option (Nat → K) := dequantize_block tq3 norm

def tq3_vec_dot_block : (Nat → K) → (Nat → Byte) → Option K := vec_dot_block tq3

def tq3_weighted_acc_block : (Nat → K) → K → (Nat → Byte) → Nat → K := weighted_acc_block tq3

def tq4_dequantize_block : (Nat → Byte) → Option (Nat → K) := dequantize_block tq4 norm

def tq4_vec_dot_block : (Nat → K) → (Nat → Byte) → Option K := vec_dot_block tq4

def tq4_weighted_acc_block : (Nat → K) → K → (Nat → Byte) → Nat → K := weighted_acc_block tq4

end Formats

/-!
# Dot products of rotated blocks

The loops of the butterflies are a Walsh-Hadamard transform, which is symmetric
and, with the norm and the signs, inverted by itself.  So a dot product with a
block that is not rotated back is the one with the block, and a weighted sum
may be rotated back at its end.
-/

/-! ## The butterflies are a transform -/

section Transform

variable {K : Type} [Field K]

/-- A vector of 32 numbers in memory. -/
def vectorOf (memory : Nat → K) (i : Fin (2 ^ 5)) : K := memory i.val

/-- The butterflies of a step go over all indices without its bit. -/
theorem stage_places (p : Fin 5) :
    let places :=
      (List.range (TQ3_BLOCK_SIZE / (2 * 2 ^ p.val))).flatMap fun i =>
        List.range' (i * (2 * 2 ^ p.val)) (2 ^ p.val)
    places.Nodup ∧ (∀ j ∈ places, ∀ j' ∈ places, j ≠ j' + 2 ^ p.val) ∧ ∀ i : Fin (2 ^ 5),
          (i.val.testBit p = false →
            i.val ∈ places ∧ ((natBits 5).flip p i).val = i.val + 2 ^ p.val) ∧
          (i.val.testBit p = true →
            i.val ∉ places ∧ 2 ^ p.val ≤ i.val ∧ i.val - 2 ^ p.val ∈ places ∧
              ((natBits 5).flip p i).val = i.val - 2 ^ p.val) := by
  revert p
  decide

/-- The loops of a step. -/
def stepLoop (step : Nat) (out : Nat → K) : Nat → K :=
  ((List.range (TQ3_BLOCK_SIZE / (2 * step))).flatMap fun i =>
      List.range' (i * (2 * step)) step).foldl
    (butterfly step) out

theorem vectorOf_stepLoop (p : Fin 5) (out : Nat → K) :
    vectorOf (stepLoop (2 ^ p.val) out) = stage (natBits 5) p (vectorOf out) := by
  rcases stage_places p with ⟨distinct, apart, isPlace⟩
  funext i
  unfold vectorOf stepLoop
  rw [foldl_butterfly (Nat.two_pow_pos p.val) distinct apart]
  unfold stage
  cases isSet : i.val.testBit p with
  | false =>
    rcases (isPlace i).1 isSet with ⟨isIn, isFlip⟩
    have notSet : ¬(natBits 5).bit p i = true := by
      show ¬i.val.testBit p = true
      rw [isSet]
      exact Bool.false_ne_true
    rw [if_pos isIn, if_neg notSet]
    show out i + out (i + 2 ^ p.val) = out i + out ((natBits 5).flip p i).val
    rw [isFlip]
  | true =>
    rcases (isPlace i).2 isSet with ⟨notIn, le, isIn, isFlip⟩
    have isSet : (natBits 5).bit p i = true := isSet
    rw [if_neg notIn, if_pos ⟨le, isIn⟩, if_pos isSet]
    show out (i - 2 ^ p.val) - out i = out ((natBits 5).flip p i).val - out i
    rw [isFlip]

theorem vectorOf_stepLoops (stages : List (Fin 5)) (out : Nat → K) :
    vectorOf (stages.foldl (fun out p => stepLoop (2 ^ p.val) out) out) =
      transform (natBits 5) stages (vectorOf out) := by
  induction stages generalizing out with
  | nil => rfl
  | cons p stages ih =>
    rw [foldl_cons, ih, vectorOf_stepLoop, transform_cons]

/-- All bits. -/
def allStages : List (Fin 5) := [0, 1, 2, 3, 4]

theorem vectorOf_butterflies (out : Nat → K) :
    vectorOf (butterflies out) = transform (natBits 5) allStages (vectorOf out) :=
  vectorOf_stepLoops allStages out

theorem signAt_mul_self (i : Fin (2 ^ 5)) : (signAt i.val : K) * signAt i.val = 1 := by
  have isSign : ∀ i : Fin (2 ^ 5), TQ3_SIGNS.getD i.val 0 * TQ3_SIGNS.getD i.val 0 = 1 := by
    decide
  unfold signAt
  rw [← Int.cast_mul, isSign, Int.cast_one]

variable {norm : K}

theorem vectorOf_forward (input : Nat → K) : vectorOf (tq3_wht_forward_32 norm input) = fun i =>
        norm * transform (natBits 5) allStages (fun i => vectorOf input i * signAt i.val) i := by
  funext i
  show vectorOf (butterflies _) i * norm = _
  rw [vectorOf_butterflies, mul_comm]
  rfl

theorem vectorOf_inverse (input : Nat → K) : vectorOf (tq3_wht_inverse_32 norm input) = fun i =>
        norm * signAt i.val * transform (natBits 5) allStages (vectorOf input) i := by
  funext i
  show vectorOf (butterflies _) i * (norm * signAt i.val) = _
  rw [vectorOf_butterflies, mul_comm]

theorem inverse_forward (isNorm : norm * norm * 32 = 1) (input : Nat → K) :
    vectorOf (tq3_wht_inverse_32 norm (tq3_wht_forward_32 norm input)) = vectorOf input := by
  rw [vectorOf_inverse, vectorOf_forward, transform_mul, transform_transform]
  funext i
  have isSign := @signAt_mul_self K _ i
  show norm * signAt i.val * (norm * (2 ^ allStages.length * (vectorOf input i * signAt i.val))) =
    vectorOf input i
  calc
    norm * signAt i.val * (norm * (2 ^ 5 * (vectorOf input i * signAt i.val))) =
        norm * norm * 32 * (signAt i.val * signAt i.val) * vectorOf input i := by
      ring
    _ = vectorOf input i := by
      rw [isNorm, isSign, one_mul, one_mul]

end Transform

/-! ## Loops over a block -/

section Blocks

variable {K : Type} [Field K]

omit [Field K] in
theorem foldl_update {ι : Type} {key : ι → Nat} {change : ι → K → K} {items : List ι}
    (distinct : (items.map key).Nodup) (memory : Nat → K) :
    (∀ item ∈ items, items.foldl (fun memory item =>
              update memory (key item) (change item (memory (key item))))
            memory (key item) =
          change item (memory (key item))) ∧
      ∀ place, place ∉ items.map key → items.foldl (fun memory item =>
              update memory (key item) (change item (memory (key item))))
            memory place =
          memory place := by
  induction items generalizing memory with
  | nil =>
    constructor
    · intro item isIn
      nomatch isIn
    · intro place _
      rfl
  | cons first items ih =>
    rw [map_cons, nodup_cons] at distinct
    rcases ih distinct.2 (update memory (key first) (change first (memory (key first)))) with
      ⟨changes, keeps⟩
    constructor
    · intro item isIn
      rw [foldl_cons]
      rcases List.mem_cons.mp isIn with rfl | isIn
      · rw [keeps _ distinct.1, update_self]
      · have other : key item ≠ key first := by
          intro same
          rw [← same] at distinct
          exact distinct.1 (mem_map_of_mem isIn)
        rw [changes item isIn, update_of_ne other]
    · intro place fresh
      rw [map_cons, mem_cons, not_or] at fresh
      rw [foldl_cons, keeps place fresh.2, update_of_ne fresh.1]

theorem places_eq : places = (List.finRange (2 ^ 5)).map fun i => (i.val / 8, i.val % 8) := by
  decide

omit [Field K] in
theorem foldl_places (change : Nat → Nat → K → K) (memory : Nat → K) : vectorOf (places.foldl
          (fun memory place =>
            update memory (place.1 * 8 + place.2)
              (change place.1 place.2 (memory (place.1 * 8 + place.2))))
          memory) =
      fun i => change (i.val / 8) (i.val % 8) (memory i.val) := by
  funext i
  have distinct : (places.map fun place : Nat × Nat => place.1 * 8 + place.2).Nodup := by
    decide
  have isIn : (i.val / 8, i.val % 8) ∈ places := by
    rw [places_eq]
    exact mem_map_of_mem (mem_finRange i)
  have changed := (@foldl_update K (Nat × Nat) (fun place => place.1 * 8 + place.2)
      (fun place => change place.1 place.2) places distinct memory).1 _ isIn
  simp only [Nat.div_add_mod'] at changed
  exact changed

/-! ## Blocks -/

variable (format : Format K) {norm : K}

/-- The rotated numbers of a block, without its scale. -/
def codes (packed : Nat → Byte) (i : Fin (2 ^ 5)) : K :=
  format.lookUp packed (i.val / 8) (i.val % 8)

theorem dequantize_block_eq (src : Nat → Byte) :
    (dequantize_block format norm src).map vectorOf = (scaleOf src).map fun scale i =>
        norm * signAt i.val * transform (natBits 5) allStages (codes format (behind src 2)) i *
          scale := by
  have isRotated := foldl_places (fun g k _ => format.lookUp (behind src 2) g k) (fun _ => (0 : K))
  unfold dequantize_block
  rw [Option.map_map]
  congr 1
  funext scale i
  show vectorOf (tq3_wht_inverse_32 norm _) i * scale = _
  rw [vectorOf_inverse, isRotated]
  rfl

theorem vec_dot_block_eq (q_rotated : Nat → K) (src : Nat → Byte) :
    vec_dot_block format q_rotated src = (scaleOf src).map fun scale =>
        (∑ i, vectorOf q_rotated i * codes format (behind src 2) i) * scale := by
  unfold vec_dot_block
  congr 1
  funext scale
  have isSum (value : Nat × Nat → K) :
      places.foldl (fun sum place => sum + value place) 0 = (places.map value).sum := by
    rw [sum_eq_foldl, foldl_map]
  refine congrArg (· * scale) ((isSum _).trans ?_)
  rw [places_eq, map_map, Fin.sum_univ_def]
  refine congrArg List.sum (map_congr_left fun i _ => ?_)
  show q_rotated (i.val / 8 * 8 + i.val % 8) * _ = _
  rw [Nat.div_add_mod']
  rfl

/-- The dot product with a rotated block is that with the block. -/
theorem vec_dot_forward (q : Nat → K) (src : Nat → Byte) :
    vec_dot_block format (tq3_wht_forward_32 norm q) src =
      (dequantize_block format norm src).map fun block =>
        ∑ i, vectorOf q i * vectorOf block i := by
  have isBlock := @dequantize_block_eq K _ format norm src
  have isMap : ((dequantize_block format norm src).map fun block =>
          ∑ i, vectorOf q i * vectorOf block i) =
        ((dequantize_block format norm src).map vectorOf).map fun block =>
          ∑ i, vectorOf q i * block i := by
    rw [Option.map_map]
    rfl
  rw [isMap, isBlock, Option.map_map, vec_dot_block_eq, vectorOf_forward]
  congr 1
  funext scale
  have symmetric := sum_transform_mul (natBits 5) allStages
      (fun i => vectorOf q i * signAt i.val) (codes format (behind src 2))
  show (∑ i, norm * _ * _) * scale = ∑ i, vectorOf q i * (_ * _ * _ * scale)
  calc
    (∑ i, norm * transform (natBits 5) allStages (fun i => vectorOf q i * signAt i.val) i *
            codes format (behind src 2) i) * scale =
        norm * scale * ∑ i, transform (natBits 5) allStages
                (fun i => vectorOf q i * signAt i.val) i *
              codes format (behind src 2) i := by
      rw [Finset.mul_sum, Finset.sum_mul]
      refine Finset.sum_congr rfl fun i _ => ?_
      ring
    _ = norm * scale * ∑ i, vectorOf q i * signAt i.val *
              transform (natBits 5) allStages (codes format (behind src 2)) i := by
      rw [symmetric]
    _ = _ := by
      rw [Finset.mul_sum]
      refine Finset.sum_congr rfl fun i _ => ?_
      ring

theorem vectorOf_weighted_acc (acc : Nat → K) (w : K) (packed : Nat → Byte) :
    vectorOf (weighted_acc_block format acc w packed) =
      fun i => vectorOf acc i + w * codes format packed i :=
  foldl_places (fun g k old => old + w * format.lookUp packed g k) acc

theorem vectorOf_inverse_weighted (acc : Nat → K) (w : K) (packed : Nat → Byte) (i : Fin (2 ^ 5)) :
    vectorOf (tq3_wht_inverse_32 norm (weighted_acc_block format acc w packed)) i =
      vectorOf (tq3_wht_inverse_32 norm acc) i + w * (norm * signAt i.val *
            transform (natBits 5) allStages (codes format packed) i) := by
  rw [vectorOf_inverse, vectorOf_inverse, vectorOf_weighted_acc, transform_add, transform_mul]
  ring

/-- Blocks with their weights, as they are without rotating. -/
def weightedBlocks (dequantize : (Nat → Byte) → Option (Nat → K))
    (blocks : List (K × (Nat → Byte))) : Option (List (K × (Nat → K))) :=
  blocks.mapM fun block =>
    (dequantize block.2).map fun numbers => (block.1, numbers)

/-- The weighted sum of blocks. -/
def weightedSum (blocks : List (K × (Nat → K))) (i : Fin (2 ^ 5)) : K :=
  (blocks.map fun block => block.1 * vectorOf block.2 i).sum

omit [Field K] in
theorem weightedBlocks_cons (dequantize : (Nat → Byte) → Option (Nat → K))
    (block : K × (Nat → Byte)) (blocks : List (K × (Nat → Byte))) :
    weightedBlocks dequantize (block :: blocks) = (dequantize block.2).bind fun numbers =>
        (weightedBlocks dequantize blocks).map ((block.1, numbers) :: ·) := by
  rw [weightedBlocks, mapM_cons]
  cases dequantize block.2 with
  | none => rfl
  | some numbers =>
    show (weightedBlocks dequantize blocks).bind _ = Option.map _ _
    cases weightedBlocks dequantize blocks with
    | none => rfl
    | some numbers => rfl

theorem accumulate_cons (weighted_acc : (Nat → K) → K → (Nat → Byte) → Nat → K)
    (block : K × (Nat → Byte)) (blocks : List (K × (Nat → Byte))) (acc : Nat → K) :
    accumulate weighted_acc (block :: blocks) acc = (scaleOf block.2).bind fun scale =>
        accumulate weighted_acc blocks (weighted_acc acc (block.1 * scale) (behind block.2 2)) := by
  rw [accumulate, foldlM_cons, Option.bind_eq_bind, Option.bind_map]
  congr 1

theorem weightedSum_cons (block : K × (Nat → K)) (blocks : List (K × (Nat → K))) (i : Fin (2 ^ 5)) :
    weightedSum (block :: blocks) i = block.1 * vectorOf block.2 i + weightedSum blocks i := by
  rw [weightedSum, map_cons, sum_cons]
  rfl

/-- The weighted sum of rotated blocks, rotated back, is that of the blocks. -/
theorem inverse_accumulate (blocks : List (K × (Nat → Byte))) (acc : Nat → K) :
    ((accumulate (weighted_acc_block format) blocks acc).map fun acc =>
        vectorOf (tq3_wht_inverse_32 norm acc)) =
      (weightedBlocks (dequantize_block format norm) blocks).map fun blocks i =>
          vectorOf (tq3_wht_inverse_32 norm acc) i + weightedSum blocks i := by
  induction blocks generalizing acc with
  | nil =>
    show some _ = some _
    simp [weightedSum]
  | cons block blocks ih =>
    have isBlock := @dequantize_block_eq K _ format norm block.2
    rw [accumulate_cons, weightedBlocks_cons]
    cases isScale : (scaleOf block.2 : Option K) with
    | none =>
      rw [isScale, Option.map_none, Option.map_eq_none_iff] at isBlock
      rw [isBlock, Option.bind_none, Option.bind_none, Option.map_none, Option.map_none]
    | some scale =>
      rw [isScale, Option.map_some] at isBlock
      rcases Option.map_eq_some_iff.mp isBlock with
        ⟨numbers, isNumbers, areNumbers⟩
      rw [isNumbers, Option.bind_some, Option.bind_some, ih, Option.map_map]
      have same (others : List (K × (Nat → K))) (i : Fin (2 ^ 5)) : vectorOf
                (tq3_wht_inverse_32 norm (weighted_acc_block format acc (block.1 * scale)
                    (behind block.2 2))) i +
              weightedSum others i =
            vectorOf (tq3_wht_inverse_32 norm acc) i +
              weightedSum ((block.1, numbers) :: others) i := by
        rw [vectorOf_inverse_weighted, weightedSum_cons, areNumbers]
        ring
      simp only [same, comp_def]

theorem inverse_accumulate_zero (blocks : List (K × (Nat → Byte))) :
    ((accumulate (weighted_acc_block format) blocks fun _ => 0).map fun acc =>
        vectorOf (tq3_wht_inverse_32 norm acc)) =
      (weightedBlocks (dequantize_block format norm) blocks).map weightedSum := by
  have isZero (i : Fin (2 ^ 5)) : vectorOf (tq3_wht_inverse_32 norm fun _ => (0 : K)) i = 0 := by
    have zeros := transform_mul (natBits 5) allStages (0 : K) (vectorOf fun _ => 0)
    rw [vectorOf_inverse]
    simp only [zero_mul] at zeros
    show norm * signAt i.val * transform (natBits 5) allStages (fun _ => 0) i = 0
    rw [zeros, mul_zero]
  rw [inverse_accumulate]
  simp only [isZero, zero_add]

end Blocks

noncomputable section Real

/-- One over the root of 32. -/
def realNorm : ℝ := 1 / Real.sqrt 32

theorem realNorm_mul : realNorm * realNorm * 32 = 1 := by
  have isRoot : Real.sqrt 32 * Real.sqrt 32 = 32 := Real.mul_self_sqrt (by norm_num)
  have notZero : Real.sqrt 32 ≠ 0 := by
    intro zero
    rw [zero, mul_zero] at isRoot
    norm_num at isRoot
  unfold realNorm
  field_simp
  rw [pow_two, isRoot]

/--
In real numbers, dot products and weighted sums of rotated blocks are those of
the blocks, and what is rotated is rotated back.
-/
theorem fused_eq_plain :
    (∀ (q : Nat → ℝ) (src : Nat → Byte), tq3_vec_dot_block (tq3_wht_forward_32 realNorm q) src =
            (tq3_dequantize_block realNorm src).map fun block =>
              ∑ i, vectorOf q i * vectorOf block i) ∧
      (∀ (q : Nat → ℝ) (src : Nat → Byte), tq4_vec_dot_block (tq3_wht_forward_32 realNorm q) src =
            (tq4_dequantize_block realNorm src).map fun block =>
              ∑ i, vectorOf q i * vectorOf block i) ∧
      (∀ blocks : List (ℝ × (Nat → Byte)),
        ((accumulate tq3_weighted_acc_block blocks fun _ => 0).map fun acc =>
            vectorOf (tq3_wht_inverse_32 realNorm acc)) =
          (weightedBlocks (tq3_dequantize_block realNorm) blocks).map weightedSum) ∧
      (∀ blocks : List (ℝ × (Nat → Byte)),
        ((accumulate tq4_weighted_acc_block blocks fun _ => 0).map fun acc =>
            vectorOf (tq3_wht_inverse_32 realNorm acc)) =
          (weightedBlocks (tq4_dequantize_block realNorm) blocks).map weightedSum) ∧
      ∀ (x : Nat → ℝ), ∀ i < TQ3_BLOCK_SIZE,
        tq3_wht_inverse_32 realNorm (tq3_wht_forward_32 realNorm x) i = x i := by
  refine ⟨fun q src => vec_dot_forward tq3 q src, fun q src => vec_dot_forward tq4 q src,
      fun blocks => inverse_accumulate_zero tq3 blocks,
      fun blocks => inverse_accumulate_zero tq4 blocks, ?_⟩
  · intro x i inBlock
    exact congrFun (inverse_forward realNorm_mul x) ⟨i, inBlock⟩

end Real

end Mnn.Cpu.TurboQuant
