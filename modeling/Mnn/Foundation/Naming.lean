import Mathlib

/-!
# Names that are not taken

Places are visited in turn, and some more than once.  A visit keeps the name of
its place, or makes a new one if there is none or it is taken.
-/

namespace Mnn.Foundation

open List

/-- The names of places, and those that are taken. -/
structure Naming (Name : Type) where
  name : Nat → Name
  taken : List Name

namespace Naming

variable {Name : Type} [DecidableEq Name] (blank : Name) (made : Nat → Name) (state : Naming Name)

def Renames (i : Nat) : Prop := state.name i = blank ∨ state.name i ∈ state.taken

instance (i : Nat) : Decidable (state.Renames blank i) := instDecidableOr

def check (i : Nat) : Naming Name :=
  let chosen := if state.Renames blank i then made i else state.name i
  { name := Function.update state.name i chosen, taken := chosen :: state.taken }

def run (visits : List Nat) : Naming Name := visits.foldl (check blank made) state

/-- A name made at the last visit of a place is not that of a place which is done. -/
def Free (visits : List Nat) : Prop :=
  ∀ before i after, visits = before ++ i :: after → i ∉ after →
    (state.run blank made before).Renames blank i →
      ∀ j ∈ before, j ≠ i → j ∉ after → (state.run blank made before).name j ≠ made i

/-- No visit of a place makes a name. -/
def Kept (visits : List Nat) (i : Nat) : Prop :=
  ∀ before after, visits = before ++ i :: after → ¬(state.run blank made before).Renames blank i

variable {blank made state} {visits : List Nat} {i j : Nat}

theorem name_check_of_ne (other : j ≠ i) : (state.check blank made i).name j = state.name j :=
  Function.update_of_ne other _ _

theorem name_run_of_notMem (notVisited : i ∉ visits) :
    (state.run blank made visits).name i = state.name i := by
  induction visits generalizing state with
  | nil => rfl
  | cons k rest ih =>
    rw [mem_cons, not_or] at notVisited
    exact (ih notVisited.2).trans (name_check_of_ne notVisited.1)

theorem run_append (before after : List Nat) :
    state.run blank made (before ++ after) = (state.run blank made before).run blank made after :=
  foldl_append

theorem run_concat (before : List Nat) :
    state.run blank made (before ++ [i]) = (state.run blank made before).check blank made i :=
  run_append before [i]

/-- The name of a place is the one chosen at its last visit. -/
theorem name_run_last {before after : List Nat} (last : i ∉ after) :
    (state.run blank made (before ++ i :: after)).name i =
      if (state.run blank made before).Renames blank i then made i
      else (state.run blank made before).name i := by
  rw [run_append]
  exact (name_run_of_notMem last).trans (Function.update_self ..)

theorem taken_of_visited (visited : i ∈ visits) :
    (state.run blank made visits).name i ∈ (state.run blank made visits).taken := by
  induction visits using List.reverseRecOn with
  | nil => cases visited
  | append_singleton before k ih =>
    rw [run_concat]
    by_cases same : i = k
    · rw [same]
      exact mem_cons.mpr (.inl (Function.update_self ..))
    · rw [name_check_of_ne same]
      exact mem_cons_of_mem _ (ih (by simpa [same] using visited))

theorem exists_last (visited : i ∈ visits) :
    ∃ before after, visits = before ++ i :: after ∧ i ∉ after := by
  obtain ⟨after, before, split, last⟩ := eq_append_cons_of_mem (mem_reverse.mpr visited)
  refine ⟨before.reverse, after.reverse, ?_, by simpa using last⟩
  simpa using congrArg reverse split

variable (blank) in
/-- A place whose last visit is later has another name. -/
theorem ne_of_free {before after : List Nat} (free : state.Free blank made (before ++ i :: after))
    (last : i ∉ after) (earlier : j ∈ before) (other : j ≠ i) (done : j ∉ after) :
    (state.run blank made (before ++ i :: after)).name j ≠
      (state.run blank made (before ++ i :: after)).name i := by
  rw [name_run_last last, run_append, name_run_of_notMem (by simp [other, done])]
  split
  case isTrue renames => exact free before i after rfl last renames j earlier other done
  case isFalse keeps => exact fun same => keeps (.inr (same ▸ taken_of_visited earlier))

theorem distinct_iff : (∀ i ∈ visits, ∀ j ∈ visits,
      (state.run blank made visits).name i = (state.run blank made visits).name j → i = j) ↔
    state.Free blank made visits := by
  constructor
  · rintro distinct before i after rfl last renames j earlier other done same
    refine other (distinct j (by simp [earlier]) i (by simp) ?_)
    rw [name_run_last last, if_pos renames, run_append, name_run_of_notMem (by simp [other, done])]
    exact same
  · intro free i visited j visited' same
    by_contra other
    obtain ⟨before, after, rfl, last⟩ := exists_last visited
    by_cases later : j ∈ after
    · obtain ⟨middle, after, rfl, last'⟩ := exists_last later
      rw [← cons_append, ← append_assoc] at free same
      exact ne_of_free blank free last' (by simp) other (by simp_all) same
    · exact ne_of_free blank free last (by simpa [Ne.symm other, later] using visited') (Ne.symm other) later
        same.symm

theorem name_ne_blank (notBlank : ∀ i, made i ≠ blank) (visited : i ∈ visits) :
    (state.run blank made visits).name i ≠ blank := by
  obtain ⟨before, after, rfl, last⟩ := exists_last visited
  rw [name_run_last last]
  split
  case isTrue => exact notBlank i
  case isFalse keeps => exact fun isBlank => keeps (.inl isBlank)

theorem kept_cons {k : Nat} : state.Kept blank made (k :: visits) i ↔
    (k = i → ¬state.Renames blank i) ∧ (state.check blank made k).Kept blank made visits i := by
  constructor
  · intro kept
    refine ⟨?_, fun before after split => kept (k :: before) after (congrArg _ split)⟩
    rintro rfl
    exact kept [] visits rfl
  · rintro ⟨first, rest⟩ (_ | ⟨_, before⟩) after split <;> cases split
    · exact first rfl
    · exact rest before after rfl

theorem name_run_eq_iff : (state.run blank made visits).name i = state.name i ↔
    made i = state.name i ∨ state.Kept blank made visits i := by
  induction visits generalizing state with
  | nil => simp [run, Kept]
  | cons k rest ih =>
    specialize @ih (state.check blank made k)
    change ((state.check blank made k).run blank made rest).name i = _ ↔ _
    rw [kept_cons]
    by_cases renamed : k = i ∧ state.Renames blank i
    · obtain ⟨rfl, renames⟩ := renamed
      have isMade : (state.check blank made k).name k = made k := by simp [check, renames]
      rw [isMade] at ih
      simp [ih.mpr (.inl rfl), renames]
    · have same : (state.check blank made k).name i = state.name i := by
        by_cases visited : i = k
        · simp_all [check]
        · exact name_check_of_ne visited
      rw [same] at ih
      rw [ih, and_iff_right fun visited renames => renamed ⟨visited, renames⟩]

end Naming

end Mnn.Foundation
