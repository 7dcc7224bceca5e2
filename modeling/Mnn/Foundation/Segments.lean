import Mathlib

/-!
# Memory in segments

Code that is given a pointer changes the memory behind it, and a loop does so
for one segment after the other.  What an address holds in the end is decided by
the last step that touches it.
-/

variable {i count offset dst address stride length base size : Nat}

namespace Mnn.Foundation.Segments

open List
open Nat

variable {T : Type*}

/-- What the addresses hold. -/
abbrev Memory (T : Type*) := Nat → T

section

variable {Address : Type*} {step : (Address → T) → Nat → Address → T} {address : Address}

theorem foldl_untouched (steps : List Nat)
    (untouched : ∀ i ∈ steps, ∀ memory, step memory i address = memory address)
    (memory : Address → T) :
    steps.foldl step memory address = memory address := by
  induction steps generalizing memory with
  | nil => rfl
  | cons i rest ih =>
    have later := ih (fun j member => untouched j (mem_cons_of_mem _ member)) (step memory i)
    exact later.trans (untouched i mem_cons_self memory)

/-- The last step that touches an address decides what it holds. -/
theorem foldl_range_last (less : i < count)
    (untouched : ∀ j, i < j → j < count → ∀ memory, step memory j address = memory address)
    (memory : Address → T) :
    (List.range count).foldl step memory address =
      step ((List.range i).foldl step memory) i address := by
  induction count with
  | zero => exact absurd less (not_lt_zero i)
  | succ count ih =>
    rw [range_succ, foldl_append, foldl_cons, foldl_nil]
    by_cases here : i = count
    · rw [here]
    · have earlier : i < count := by
        omega
      rw [untouched count earlier (lt_succ_self count)]
      exact ih earlier fun j after below =>
          untouched j after (lt_succ_of_lt below)

end

theorem foldl_nested (step : Memory T → Nat → Memory T) (count width : Nat) (memory : Memory T) :
    (List.range count).foldl (fun memory i =>
          (List.range width).foldl (fun memory j => step memory (i * width + j)) memory)
        memory =
      (List.range (count * width)).foldl step memory := by
  induction count with
  | zero => rw [Nat.zero_mul, range_zero, foldl_nil, foldl_nil]
  | succ count ih =>
    rw [range_succ, foldl_append, ih, foldl_cons,
      foldl_nil, succ_mul, range_add, foldl_append,
      foldl_map]

/-! ## Copying -/

/-- `memcpy`, of elements. -/
def copy (dst : Nat) (source : Memory T) (src count : Nat) (memory : Memory T) : Memory T :=
  fun address =>
    if dst ≤ address ∧ address < dst + count then
      source (src + (address - dst))
    else
      memory address

/-- `memset`, of elements. -/
def fill (dst count : Nat) (value : T) (memory : Memory T) : Memory T :=
  fun address =>
    if dst ≤ address ∧ address < dst + count then value else memory address

theorem copy_at (dst : Nat) (source : Memory T) (src : Nat)
    (less : offset < count) (memory : Memory T) :
    copy dst source src count memory (dst + offset) = source (src + offset) := by
  rw [copy, if_pos (by omega), Nat.add_sub_cancel_left]

theorem copy_other (other : address < dst ∨ dst + count ≤ address)
    (source : Memory T) (src : Nat) (memory : Memory T) :
    copy dst source src count memory address = memory address :=
  if_neg (by omega)

theorem fill_at (inside : dst ≤ address ∧ address < dst + count) (value : T)
    (memory : Memory T) : fill dst count value memory address = value :=
  if_pos inside

theorem fill_other (other : address < dst ∨ dst + count ≤ address) (value : T) (memory : Memory T) :
    fill dst count value memory address = memory address :=
  if_neg (by omega)

/-- Pieces of memory are moved apart, or together. -/
def copies (stride : Nat) (source : Memory T) (stride' length count : Nat)
    (memory : Memory T) : Memory T :=
  (List.range count).foldl (fun memory i => copy (i * stride) source (i * stride') length memory)
    memory

theorem copies_at (less : i < count) (inStride : offset < stride) (copied : offset < length)
    (source : Memory T) (stride' : Nat) (memory : Memory T) :
    copies stride source stride' length count memory (i * stride + offset) =
      source (i * stride' + offset) := by
  have later :
      ∀ j, i < j → j < count → ∀ memory : Memory T,
        copy (j * stride) source (j * stride') length memory (i * stride + offset) =
          memory (i * stride + offset) := by
    intro j after _ memory
    have next : i * stride + stride ≤ j * stride := by
      rw [← succ_mul]
      exact mul_le_mul_right stride after
    exact copy_other (by omega) source _ memory
  rw [copies, foldl_range_last less later]
  exact copy_at _ source _ copied _

theorem copies_gap (i : Nat) (inStride : offset < stride)
    (notCopied : length ≤ offset) (source : Memory T) (stride' count : Nat) (memory : Memory T) :
    copies stride source stride' length count memory (i * stride + offset) =
      memory (i * stride + offset) := by
  refine foldl_untouched _ ?_ memory
  intro j _ memory
  have apart : i * stride + offset < j * stride ∨ j * stride + length ≤ i * stride + offset := by
    rcases Nat.lt_or_ge i j with less | atLeast
    · have next : i * stride + stride ≤ j * stride := by
        rw [← succ_mul]
        exact mul_le_mul_right stride less
      omega
    · have before : j * stride ≤ i * stride := mul_le_mul_right stride atLeast
      omega
  exact copy_other apart source _ memory

/-! ## Segments -/

/-- The memory from an address on. -/
def behind (base : Nat) (memory : Memory T) : Memory T := fun offset => memory (base + offset)

/-- A change of the memory behind a pointer. -/
def onSegment (base : Nat) (change : Memory T → Memory T) (memory : Memory T) : Memory T :=
  fun address =>
    if base ≤ address then
      change (behind base memory) (address - base)
    else
      memory address

/-- The change does not go beyond the segment. -/
def Within (size : Nat) (change : Memory T → Memory T) : Prop :=
  ∀ memory offset, size ≤ offset → change memory offset = memory offset

/-- A loop over the segments. -/
def forSegments (count size : Nat) (change : Nat → Memory T → Memory T)
    (memory : Memory T) : Memory T :=
  (List.range count).foldl (fun memory i => onSegment (i * size) (change i) memory) memory

theorem onSegment_at (base offset : Nat) (change : Memory T → Memory T) (memory : Memory T) :
    onSegment base change memory (base + offset) =
      change (behind base memory) offset := by
  rw [onSegment, if_pos (Nat.le_add_right ..), Nat.add_sub_cancel_left]

theorem onSegment_before (before : address < base)
    (change : Memory T → Memory T) (memory : Memory T) :
    onSegment base change memory address = memory address :=
  if_neg (Nat.not_le_of_lt before)

theorem onSegment_after {change : Memory T → Memory T} (within : Within size change)
    (after : base + size ≤ address) (memory : Memory T) :
    onSegment base change memory address = memory address := by
  rw [onSegment, if_pos (by omega), within _ _ (by omega), behind]
  congr 1
  omega

theorem forSegments_at {change : Nat → Memory T → Memory T}
    (within : ∀ i, Within size (change i)) (less : i < count)
    (inside : offset < size) (memory : Memory T) :
    forSegments count size change memory (i * size + offset) =
      change i (behind (i * size) memory) offset := by
  have later :
      ∀ j, i < j → j < count → ∀ memory : Memory T,
        onSegment (j * size) (change j) memory (i * size + offset) =
          memory (i * size + offset) := by
    intro j after _ memory
    have next : i * size + size ≤ j * size := by
      rw [← succ_mul]
      exact mul_le_mul_right size after
    exact onSegment_before (by omega) _ memory
  have earlier : behind (i * size) ((List.range i).foldl
            (fun memory j => onSegment (j * size) (change j) memory) memory) =
        behind (i * size) memory := by
    funext address
    refine foldl_untouched _ ?_ memory
    intro j member memory
    have next : j * size + size ≤ i * size := by
      rw [← succ_mul]
      exact mul_le_mul_right size (mem_range.mp member)
    exact onSegment_after (within j) (by omega) memory
  rw [forSegments, foldl_range_last less later, onSegment_at, earlier]

end Mnn.Foundation.Segments
