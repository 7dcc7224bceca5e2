import Mathlib

/-!
# Cutting a text in pieces

A text that is cut at offsets which do not decrease is made up of its pieces.
-/

namespace Mnn.Foundation.Cutting

open List

variable {α : Type} (text : List α)

/-- What lies between two offsets. -/
def slice (first last : Nat) : List α := (text.drop first).take (last - first)

@[simp]
theorem slice_self (offset : Nat) : slice text offset offset = [] := by
  rw [slice, Nat.sub_self, take_zero]

@[simp]
theorem slice_zero_length : slice text 0 text.length = text := by
  rw [slice, drop_zero, Nat.sub_zero, take_length]

variable {text} {first last place size : Nat}

theorem slice_append {mid : Nat} (le : first ≤ mid) (le' : mid ≤ last) :
    slice text first mid ++ slice text mid last = slice text first last := by
  have behind : text.drop mid = (text.drop first).drop (mid - first) := by
    rw [drop_drop, Nat.add_sub_cancel' le]
  have split : last - first = (mid - first) + (last - mid) := by omega
  rw [slice, slice, slice, behind, split, take_add]

theorem slice_append_drop (le : first ≤ last) :
    slice text first last ++ text.drop last = text.drop first := by
  have behind : text.drop last = (text.drop first).drop (last - first) := by
    rw [drop_drop, Nat.add_sub_cancel' le]
  rw [slice, behind, take_append_drop]

/-! ## Offsets -/

/-- Offsets from the front of the text to its end. -/
structure Offsets (text : List α) (size : Nat) (offset : Nat → Nat) : Prop where
  first : offset 0 = 0
  last : offset size = text.length
  mono : ∀ i j, i ≤ j → j ≤ size → offset i ≤ offset j

/-- Pieces from one place to another. -/
inductive Pieces (text : List α) (offset : Nat → Nat) : Nat → Nat → List (List α) → Prop
  | nil (place : Nat) : Pieces text offset place place []
  | cons {place next last : Nat} {pieces : List (List α)} :
      place ≤ next → Pieces text offset next last pieces → Pieces text offset place last
          (slice text (offset place) (offset next) :: pieces)

variable {pieces : List (List α)} {offset : Nat → Nat}

theorem Pieces.le (cut : Pieces text offset place last pieces) : place ≤ last := by
  induction cut with
  | nil => exact Nat.le_refl _
  | cons le _ le' => exact Nat.le_trans le le'

theorem Pieces.flatten (offsets : Offsets text size offset)
    (cut : Pieces text offset place last pieces) (inside : last ≤ size) :
    pieces.flatten = slice text (offset place) (offset last) := by
  induction cut with
  | nil => exact (slice_self ..).symm
  | cons le others ih =>
    rw [flatten_cons, ih inside]
    exact slice_append (offsets.mono _ _ le (Nat.le_trans others.le inside))
      (offsets.mono _ _ others.le inside)

theorem Pieces.flatten_all (offsets : Offsets text size offset)
    (cut : Pieces text offset 0 size pieces) : pieces.flatten = text := by
  rw [cut.flatten offsets (Nat.le_refl _), offsets.first, offsets.last, slice_zero_length]

/-- Parts that are at least as long make up the same text only if they are the same. -/
theorem flatMap_eq_iff {β : Type} {first second : α → List β} {parts : List α}
    (longer : ∀ part ∈ parts, (second part).length ≤ (first part).length) :
    parts.flatMap first = parts.flatMap second ↔ ∀ part ∈ parts, first part = second part := by
  refine ⟨fun same => ?_, flatMap_congr⟩
  have total (parts : List α)
      (longer : ∀ part ∈ parts, (second part).length ≤ (first part).length) :
      (parts.flatMap second).length ≤ (parts.flatMap first).length := by
    rw [length_flatMap, length_flatMap]
    exact sum_le_sum longer
  induction parts with
  | nil => exact forall_mem_nil _
  | cons part parts ih =>
    have here := longer part mem_cons_self
    have later := total parts fun other isMem =>
      longer other (mem_cons_of_mem _ isMem)
    rw [flatMap_cons, flatMap_cons] at same
    have lengths := congrArg List.length same
    rw [length_append, length_append] at lengths
    obtain ⟨isFirst, areOthers⟩ := append_inj same (by omega)
    exact forall_mem_cons.mpr ⟨isFirst,
      ih (fun other isMem => longer other (mem_cons_of_mem _ isMem)) areOthers⟩

theorem flatMap_eq_iff_of_length_le {β : Type} {first second : α → List β} {parts : List α}
    (le : ∀ part ∈ parts, (first part).length ≤ (second part).length) :
    parts.flatMap first = parts.flatMap second ↔ ∀ part ∈ parts, first part = second part := by
  rw [eq_comm, flatMap_eq_iff le]
  exact forall₂_congr fun _ _ => eq_comm

end Mnn.Foundation.Cutting
