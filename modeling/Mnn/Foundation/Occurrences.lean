import Mathlib

/-!
# Occurrences in a text

Where a word occurs in a text, and which of several words is the leftmost and longest
one.  What occurs in a part of a text occurs in the text.
-/

namespace Mnn.Foundation.Occurrences

open List
open Option

variable {α : Type}

/-- The word is found at the place. -/
def OccursAt (word text : List α) (place : Nat) : Prop := word <+: text.drop place

variable {word text : List α} {place size : Nat}

theorem occursAt_drop {start : Nat} :
    OccursAt word (text.drop start) place ↔ OccursAt word text (start + place) := by
  rw [OccursAt, drop_drop, OccursAt]

theorem OccursAt.length_le (occurs : OccursAt word text place) (some : word ≠ []) :
    place + word.length ≤ text.length := by
  have fits := List.IsPrefix.length_le occurs
  rw [length_drop] at fits
  have positive := length_pos_of_ne_nil some
  omega

theorem OccursAt.head?_eq (occurs : OccursAt word text place) (some : word ≠ []) :
    (text.drop place).head? = word.head? := by
  obtain ⟨rest, isRest⟩ := occurs
  rw [← isRest, List.head?_append_of_ne_nil _ some]

theorem OccursAt.of_take (occurs : OccursAt word (text.take size) place) :
    OccursAt word text place := by
  rw [OccursAt, drop_take] at occurs
  exact occurs.trans ( take_prefix ..)

theorem OccursAt.take (occurs : OccursAt word text place)
    (fits : place + word.length ≤ size) : OccursAt word (text.take size) place := by
  rw [OccursAt, drop_take]
  exact prefix_take_iff.mpr ⟨occurs, by omega⟩

/-- The first place where the word occurs. -/
def find [DecidableEq α] (word : List α) : List α → Option Nat
  | [] => if word = [] then some 0 else none
  | c :: rest =>
    if word.isPrefixOf (c :: rest) then some 0 else (find word rest).map (· + 1)

theorem find_eq_some [DecidableEq α] (found : find word text = some place) :
    OccursAt word text place ∧ ∀ place', OccursAt word text place' → place ≤ place' := by
  induction text generalizing place with
  | nil =>
    rw [find] at found
    split at found
    · rename_i isNil
      obtain rfl := some.inj found
      refine ⟨?_, fun place' _ => Nat.zero_le place'⟩
      rw [isNil]
      exact nil_prefix
    · cases found
  | cons c rest ih =>
    rw [find] at found
    split at found
    · rename_i isPrefix
      obtain rfl := some.inj found
      exact ⟨ isPrefixOf_iff_prefix.mp isPrefix, fun place' _ => Nat.zero_le place'⟩
    · rename_i notPrefix
      obtain ⟨place, isFound, rfl⟩ := map_eq_some_iff.mp found
      obtain ⟨occurs, first⟩ := ih isFound
      refine ⟨occurs, fun place' occurs' => ?_⟩
      cases place' with
      | zero => exact absurd ( isPrefixOf_iff_prefix.mpr occurs') notPrefix
      | succ place' => exact Nat.succ_le_succ (first place' occurs')

/-- No word occurs further to the left, and none at the place is longer. -/
structure Best (words : List (List α)) (text : List α) (place : Nat)
    (word : List α) : Prop where
  member : word ∈ words
  some : word ≠ []
  occurs : OccursAt word text place
  leftmost : ∀ other ∈ words, other ≠ [] → ∀ place', OccursAt other text place' → place ≤ place'
  longest : ∀ other ∈ words, OccursAt other text place → other.length ≤ word.length

variable {words : List (List α)}

section

variable {place' : Nat} {word' : List α} (best : Best words text place word)
  (best' : Best words text place' word')

include best best'

theorem Best.place_eq :
    place = place' :=
  Nat.le_antisymm (best.leftmost word' best'.member best'.some place' best'.occurs)
    (best'.leftmost word best.member best.some place best.occurs)

theorem Best.word_eq :
    word = word' := by
  obtain rfl := best.place_eq best'
  have sameLength : word.length = word'.length :=
    Nat.le_antisymm (best'.longest word best.member best.occurs)
      (best.longest word' best'.member best'.occurs)
  rcases prefix_or_prefix_of_prefix best.occurs best'.occurs with first | first
  · exact first.eq_of_length sameLength
  · exact (first.eq_of_length sameLength.symm).symm

end

end Mnn.Foundation.Occurrences
