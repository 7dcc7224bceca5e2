import Mathlib

/-!
# Walsh-Hadamard transforms

A stage of the transform adds and subtracts the numbers at two indices that
differ in a bit.  Stages are symmetric and commute, and a stage after itself
doubles all numbers; so the transform is symmetric, and its own inverse up to a
power of two.
-/

namespace Mnn.Foundation.WalshHadamard

open List
open Function

/-- Indices with bits that can be flipped, independently of each other. -/
structure Bits (ι : Type) (count : Nat) where
  bit : Fin count → ι → Bool
  flip : Fin count → ι → ι
  flip_flip : ∀ p index, flip p (flip p index) = index
  flip_comm : ∀ p q index, flip p (flip q index) = flip q (flip p index)
  bit_flip : ∀ p index, bit p (flip p index) = !bit p index
  bit_flip_other : ∀ p q index, p ≠ q → bit p (flip q index) = bit p index

/-- The bits of the numbers below a power of two. -/
def natBits (count : Nat) : Bits (Fin (2 ^ count)) count where
  bit p index := index.val.testBit p
  flip p index :=
    ⟨index.val ^^^ 2 ^ p.val,
      Nat.xor_lt_two_pow index.isLt (Nat.pow_lt_pow_right (by decide) p.isLt)⟩
  flip_flip p index := by
    apply Fin.ext
    show (index.val ^^^ 2 ^ p.val) ^^^ 2 ^ p.val = index.val
    rw [Nat.xor_assoc, Nat.xor_self, Nat.xor_zero]
  flip_comm p q index := by
    apply Fin.ext
    show (index.val ^^^ 2 ^ q.val) ^^^ 2 ^ p.val = (index.val ^^^ 2 ^ p.val) ^^^ 2 ^ q.val
    rw [Nat.xor_assoc, Nat.xor_assoc, Nat.xor_comm (2 ^ q.val)]
  bit_flip p index := by
    show (index.val ^^^ 2 ^ p.val).testBit p = !index.val.testBit p
    rw [Nat.testBit_xor, Nat.testBit_two_pow_self, Bool.xor_true]
  bit_flip_other p q index other := by
    show (index.val ^^^ 2 ^ q.val).testBit p = index.val.testBit p
    rw [Nat.testBit_xor, Nat.testBit_two_pow_of_ne fun same => other (Fin.ext same.symm),
      Bool.xor_false]

section Transform

variable {ι K : Type} [CommRing K] {count : Nat} (bits : Bits ι count)

/-- A stage: sums where the bit is not set, differences where it is. -/
def stage (p : Fin count) (vector : ι → K) (index : ι) : K :=
  if bits.bit p index then
    vector (bits.flip p index) - vector index
  else
    vector index + vector (bits.flip p index)

/-- Stages, one after the other. -/
def transform (stages : List (Fin count)) (vector : ι → K) : ι → K :=
  stages.foldl (fun vector p => stage bits p vector) vector

@[simp]
theorem transform_nil (vector : ι → K) : transform bits [] vector = vector :=
  rfl

theorem transform_cons (p : Fin count) (stages : List (Fin count)) (vector : ι → K) :
    transform bits (p :: stages) vector = transform bits stages (stage bits p vector) :=
  rfl

theorem stage_mul (p : Fin count) (factor : K) (vector : ι → K) :
    stage bits p (fun index => factor * vector index) =
      fun index => factor * stage bits p vector index := by
  funext index
  unfold stage
  split
  · ring
  · ring

theorem stage_add (p : Fin count) (first second : ι → K) :
    stage bits p (fun index => first index + second index) =
      fun index => stage bits p first index + stage bits p second index := by
  funext index
  unfold stage
  split
  · ring
  · ring

theorem stage_stage (p : Fin count) (vector : ι → K) :
    stage bits p (stage bits p vector) = fun index => 2 * vector index := by
  funext index
  cases isSet : bits.bit p index with
  | false =>
    simp only [stage, bits.bit_flip, isSet, bits.flip_flip, Bool.not_false,
      Bool.false_eq_true, if_true, if_false]
    ring
  | true =>
    simp only [stage, bits.bit_flip, isSet, bits.flip_flip, Bool.not_true,
      Bool.false_eq_true, if_true, if_false]
    ring

theorem stage_comm (p q : Fin count) (vector : ι → K) :
    stage bits p (stage bits q vector) = stage bits q (stage bits p vector) := by
  by_cases same : p = q
  · rw [same]
  · funext index
    have isP (index : ι) := bits.bit_flip_other p q index same
    have isQ (index : ι) := bits.bit_flip_other q p index (Ne.symm same)
    have swapped := bits.flip_comm p q index
    simp only [stage, isP, isQ, swapped]
    cases bits.bit p index with
    | false =>
      cases bits.bit q index with
      | false =>
        simp only [Bool.false_eq_true, if_false]
        ring
      | true =>
        simp only [Bool.false_eq_true, if_true, if_false]
        ring
    | true =>
      cases bits.bit q index with
      | false =>
        simp only [Bool.false_eq_true, if_true, if_false]
        ring
      | true =>
        simp only [if_true]
        ring

section

variable (stages : List (Fin count))

theorem transform_mul (factor : K) (vector : ι → K) :
    transform bits stages (fun index => factor * vector index) =
      fun index => factor * transform bits stages vector index := by
  induction stages generalizing vector with
  | nil => rfl
  | cons p stages ih =>
    rw [transform_cons, stage_mul, ih, transform_cons]

theorem transform_add (first second : ι → K) :
    transform bits stages (fun index => first index + second index) = fun index =>
        transform bits stages first index + transform bits stages second index := by
  induction stages generalizing first second with
  | nil => rfl
  | cons p stages ih =>
    rw [transform_cons, stage_add, ih, transform_cons, transform_cons]

theorem transform_stage (p : Fin count) (vector : ι → K) :
    transform bits stages (stage bits p vector) = stage bits p (transform bits stages vector) := by
  induction stages generalizing vector with
  | nil => rfl
  | cons q stages ih =>
    rw [transform_cons, transform_cons, stage_comm, ih]

theorem transform_transform (vector : ι → K) :
    transform bits stages (transform bits stages vector) =
      fun index => 2 ^ stages.length * vector index := by
  induction stages generalizing vector with
  | nil =>
    funext index
    simp
  | cons p stages ih =>
    rw [transform_cons, transform_cons, transform_stage, transform_stage,
      transform_stage, ih, stage_mul, stage_mul, stage_stage]
    funext index
    rw [length_cons, pow_succ]
    ring

end

variable [Fintype ι]

theorem sum_flip (p : Fin count) (value : ι → K) :
    ∑ index, value (bits.flip p index) = ∑ index, value index :=
  Finset.sum_nbij' (bits.flip p) (bits.flip p)
    (fun _ _ => Finset.mem_univ _) (fun _ _ => Finset.mem_univ _)
    (fun index _ => bits.flip_flip p index)
    (fun index _ => bits.flip_flip p index) fun _ _ => rfl

theorem sum_stage_mul (p : Fin count) (first second : ι → K) :
    ∑ index, stage bits p first index * second index =
      ∑ index, first index * stage bits p second index := by
  -- The products of an index and its flip change sides.
  have crossed :
      ∑ index, first (bits.flip p index) * second index =
        ∑ index, first index * second (bits.flip p index) := by
    rw [← sum_flip bits p fun index => first index * second (bits.flip p index)]
    simp only [bits.flip_flip]
  have isLeft (index : ι) :
      stage bits p first index * second index =
        first (bits.flip p index) * second index +
          (if bits.bit p index then -1 else 1) * (first index * second index) := by
    unfold stage
    split
    · ring
    · ring
  have isRight (index : ι) :
      first index * stage bits p second index =
        first index * second (bits.flip p index) +
          (if bits.bit p index then -1 else 1) * (first index * second index) := by
    unfold stage
    split
    · ring
    · ring
  simp only [isLeft, isRight, Finset.sum_add_distrib, crossed]

theorem sum_transform_mul (stages : List (Fin count)) (first second : ι → K) :
    ∑ index, transform bits stages first index * second index =
      ∑ index, first index * transform bits stages second index := by
  induction stages generalizing first with
  | nil => rfl
  | cons p stages ih =>
    rw [transform_cons, ih, sum_stage_mul, transform_cons, transform_stage]

end Transform

section Loop

variable {K : Type} [CommRing K]

/-- Two numbers in memory become their sum and their difference. -/
def butterfly (step : Nat) (memory : Nat → K) (j : Nat) : Nat → K :=
  update (update memory j (memory j + memory (j + step)))
    (j + step) (memory j - memory (j + step))

/-- Butterflies that do not touch each other leave sums and differences. -/
theorem foldl_butterfly {step : Nat} (positive : 0 < step) {places : List Nat}
    (distinct : places.Nodup) (apart : ∀ j ∈ places, ∀ j' ∈ places, j ≠ j' + step)
    (memory : Nat → K) (k : Nat) :
    places.foldl (butterfly step) memory k =
      if k ∈ places then
        memory k + memory (k + step)
      else if step ≤ k ∧ k - step ∈ places then
        memory (k - step) - memory k
      else
        memory k := by
  induction places generalizing memory with
  | nil => simp
  | cons j places ih =>
    rcases nodup_cons.mp distinct with ⟨fresh, distinct⟩
    have apart' : ∀ j ∈ places, ∀ j' ∈ places, j ≠ j' + step :=
      fun j isIn j' isIn' =>
        apart j (mem_cons_of_mem _ isIn) j' (mem_cons_of_mem _ isIn')
    have other (k : Nat) (notFirst : k ≠ j) (notSecond : k ≠ j + step) :
        butterfly step memory j k = memory k := by
      rw [butterfly, update_of_ne notSecond, update_of_ne notFirst]
    have isFirst : butterfly step memory j j = memory j + memory (j + step) := by
      rw [butterfly, update_of_ne (by omega), update_self]
    have isSecond : butterfly step memory j (j + step) = memory j - memory (j + step) := by
      rw [butterfly, update_self]
    rw [foldl_cons, ih distinct apart']
    by_cases first : k = j
    · subst first
      have notBehind : ¬(step ≤ k ∧ k - step ∈ places) := by
        rintro ⟨le, isIn⟩
        exact apart k mem_cons_self (k - step) (mem_cons_of_mem _ isIn) (Nat.sub_add_cancel le).symm
      rw [if_neg fresh, if_neg notBehind, if_pos mem_cons_self, isFirst]
    · by_cases second : k = j + step
      · have notIn : k ∉ places := fun isIn =>
          apart k (mem_cons_of_mem _ isIn) j mem_cons_self second
        have isPlace : k - step = j := by omega
        have notIn' : k ∉ j :: places := by
          rw [mem_cons, not_or]
          exact ⟨first, notIn⟩
        have isBehind : step ≤ k ∧ k - step ∈ j :: places := by
          rw [isPlace]
          exact ⟨by omega, mem_cons_self⟩
        have notBehind : ¬(step ≤ k ∧ k - step ∈ places) := by
          rw [isPlace]
          exact fun isIn => fresh isIn.2
        rw [if_neg notIn, if_neg notBehind, if_neg notIn', if_pos isBehind,
          isPlace, second, isSecond]
      · have sameIn : k ∈ j :: places ↔ k ∈ places := by
          rw [mem_cons, or_iff_right first]
        have sameBehind : (step ≤ k ∧ k - step ∈ j :: places) ↔ step ≤ k ∧ k - step ∈ places := by
          rw [mem_cons]
          constructor
          · rintro ⟨le, same | isIn⟩
            · omega
            · exact ⟨le, isIn⟩
          · rintro ⟨le, isIn⟩
            exact ⟨le, Or.inr isIn⟩
        simp only [sameIn, sameBehind, other k first second]
        split
        · rename_i isIn
          rw [other (k + step) _ (by omega)]
          exact fun same =>
            apart j mem_cons_self k (mem_cons_of_mem _ isIn) same.symm
        · split
          · rename_i isBehind
            rw [other (k - step) (by omega)]
            exact apart (k - step) (mem_cons_of_mem _ isBehind.2) j mem_cons_self
          · rfl

end Loop

end Mnn.Foundation.WalshHadamard
