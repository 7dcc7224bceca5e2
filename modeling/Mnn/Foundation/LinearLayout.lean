import Mathlib

/-!
# Linear layouts with marks

A layout is a row of slots.  Every slot has a size, so that a slot starts
where the one before it ends, and carries marks at fixed distances from its
start.  Slots may be split, fused with their right neighbour, grown and
appended; a mark stays attached to its slot, also when it lies beyond the
present end of that slot.

The order of two marks is what these changes respect: whenever one marked
range ends before the next one begins, and its slot does not come later, this
remains so.  All four changes are instances of one notion of `Shift`.
-/

namespace Mnn.Foundation.LinearLayout

open List

universe u

variable {Mark : Type u}

/-- One slot of a layout. -/
structure Slot (Mark : Type u) where
  key : Mark
  size : Nat
  free : Bool
  marks : List (Mark × Nat)

/-- A row of slots. -/
abbrev Layout (Mark : Type u) := List (Slot Mark)

/-- The size of a whole layout. -/
def total (layout : Layout Mark) : Nat := (layout.map Slot.size).sum

@[simp]
theorem total_nil : total ([] : Layout Mark) = 0 :=
  rfl

@[simp]
theorem total_cons (slot : Slot Mark) (layout : Layout Mark) :
    total (slot :: layout) = slot.size + total layout := by
  simp [total]

@[simp]
theorem total_append (left right : Layout Mark) :
    total (left ++ right) = total left + total right := by
  simp [total]

/-- `mark` belongs to the slot number `index` and lies at `position`. -/
def Marked (layout : Layout Mark) (mark : Mark) (index position : Nat) : Prop :=
  ∃ before slot after relative, layout = before ++ slot :: after ∧ before.length = index ∧
      (mark, relative) ∈ slot.marks ∧ position = total before + relative

variable {before after layout source middle target : Layout Mark}
  {relative index position size : Nat} {mark first second : Mark} {slot left right : Slot Mark}

theorem Marked.of_mem (member : (mark, relative) ∈ slot.marks) :
    Marked (before ++ slot :: after) mark before.length (total before + relative) :=
  ⟨before, slot, after, relative, rfl, rfl, member, rfl⟩

/-- Where the marks of a layout lie after one slot has been singled out. -/
theorem Marked.cases (marked : Marked (before ++ slot :: after) mark index position) :
    (index < before.length ∧ Marked before mark index position) ∨ (index = before.length ∧
        ∃ relative, (mark, relative) ∈ slot.marks ∧ position = total before + relative) ∨
      ∃ later, index = before.length + 1 + later ∧ ∃ rest, Marked after mark later rest ∧
          position = total before + slot.size + rest := by
  rcases marked with
    ⟨front, found, back, relative, split, rfl, member, rfl⟩
  rcases append_eq_append_iff.mp split with
    ⟨extra, frontEq, rest⟩ | ⟨extra, beforeEq, rest⟩
  · cases extra with
    | nil =>
      simp only [append_nil] at frontEq
      simp only [nil_append, List.cons.injEq] at rest
      rcases rest with ⟨rfl, rfl⟩
      subst frontEq
      exact Or.inr (Or.inl ⟨rfl, relative, member, rfl⟩)
    | cons head tail =>
      simp only [cons_append, List.cons.injEq] at rest
      rcases rest with ⟨rfl, rfl⟩
      subst frontEq
      refine Or.inr (Or.inr ⟨tail.length, ?_, total tail + relative, ?_, ?_⟩)
      · simp only [length_append, length_cons]
        omega
      · exact Marked.of_mem member
      · simp only [total_append, total_cons]
        omega
  · cases extra with
    | nil =>
      simp only [append_nil] at beforeEq
      simp only [nil_append, List.cons.injEq] at rest
      rcases rest with ⟨rfl, rfl⟩
      subst beforeEq
      exact Or.inr (Or.inl ⟨rfl, relative, member, rfl⟩)
    | cons head tail =>
      simp only [cons_append, List.cons.injEq] at rest
      rcases rest with ⟨rfl, rfl⟩
      subst beforeEq
      refine Or.inl ⟨?_, Marked.of_mem member⟩
      simp

theorem Marked.append_left (after : Layout Mark) (marked : Marked layout mark index position) :
    Marked (layout ++ after) mark index position := by
  rcases marked with ⟨front, slot, back, relative, rfl, rfl, member, rfl⟩
  exact ⟨front, slot, back ++ after, relative, by simp, rfl, member, rfl⟩

theorem Marked.append_right (before : Layout Mark) (marked : Marked layout mark index position) :
    Marked (before ++ layout) mark (before.length + index) (total before + position) := by
  rcases marked with ⟨front, slot, back, relative, rfl, rfl, member, rfl⟩
  exact ⟨before ++ front, slot, back, relative, by simp, by simp, member, by
      simp [add_assoc]⟩

theorem Marked.index_lt (marked : Marked layout mark index position) :
    index < layout.length := by
  rcases marked with ⟨front, slot, back, relative, rfl, rfl, member, rfl⟩
  simp

/-! ## Ranges in order -/

/--
The range of `size` cells at `first` ends before `second` begins, and the
slot of `first` does not come after the slot of `second`.
-/
def Precedes (layout : Layout Mark) (first : Mark) (size : Nat) (second : Mark) :
    Prop :=
  ∃ index position laterIndex laterPosition, Marked layout first index position ∧
      Marked layout second laterIndex laterPosition ∧
        index ≤ laterIndex ∧ position + size ≤ laterPosition

/-- The range of `size` cells at `mark` ends inside the layout. -/
def Inside (layout : Layout Mark) (mark : Mark) (size : Nat) : Prop :=
  ∃ index position, Marked layout mark index position ∧ position + size ≤ total layout

/--
A change of a layout that renumbers slots monotonically and moves the marks of
later slots at least as far to the right as those of earlier slots.
-/
structure Shift (source target : Layout Mark) where
  reindex : Nat → Nat
  distance : Nat → Nat
  reindex_mono : Monotone reindex
  distance_mono : Monotone distance
  marked :
    ∀ {mark index position}, Marked source mark index position →
        Marked target mark (reindex index) (position + distance index)
  within : ∀ index, total source + distance index ≤ total target

variable {source target : Layout Mark}

theorem Precedes.shift (change : Shift source target)
    (precedes : Precedes source first size second) :
    Precedes target first size second := by
  rcases precedes with
    ⟨index, position, laterIndex, laterPosition, marked, laterMarked, ordered, apart⟩
  have further := change.distance_mono ordered
  exact ⟨change.reindex index, position + change.distance index,
      change.reindex laterIndex,
      laterPosition + change.distance laterIndex,
      change.marked marked, change.marked laterMarked,
      change.reindex_mono ordered, by omega⟩

theorem Inside.shift (change : Shift source target) (inside : Inside source mark size) :
    Inside target mark size := by
  rcases inside with ⟨index, position, marked, bounded⟩
  have within := change.within index
  exact ⟨change.reindex index, position + change.distance index,
      change.marked marked, by omega⟩

/-! ## The changes -/

def Shift.refl (layout : Layout Mark) : Shift layout layout where
  reindex index := index
  distance _ := 0
  reindex_mono := monotone_id
  distance_mono := monotone_const
  marked := fun found => found
  within := fun _ => le_rfl

/-- Two changes, one after the other. -/
def Shift.trans {source middle target : Layout Mark}
    (first : Shift source middle) (second : Shift middle target) :
    Shift source target where
  reindex index := second.reindex (first.reindex index)
  distance index :=
    first.distance index + second.distance (first.reindex index)
  reindex_mono := second.reindex_mono.comp first.reindex_mono
  distance_mono := by
    intro left right ordered
    exact Nat.add_le_add (first.distance_mono ordered)
        (second.distance_mono (first.reindex_mono ordered))
  marked := by
    intro mark index position found
    rw [← add_assoc]
    exact second.marked (first.marked found)
  within := by
    intro index
    have firstWithin := first.within index
    have secondWithin := second.within (first.reindex index)
    omega

/-- Append a slot. -/
def Shift.push (layout : Layout Mark) (slot : Slot Mark) : Shift layout (layout ++ [slot]) where
  reindex index := index
  distance _ := 0
  reindex_mono := monotone_id
  distance_mono := monotone_const
  marked := by
    intro mark index position found
    exact found.append_left [slot]
  within := by
    intro index
    simp

/-- Replace a slot by one with the same marks that is not smaller. -/
def Shift.grow (before after : Layout Mark) {slot larger : Slot Mark}
    (sameMarks : larger.marks = slot.marks)
    (grown : slot.size ≤ larger.size) :
    Shift (before ++ slot :: after) (before ++ larger :: after) where
  reindex index := index
  distance index :=
    if index ≤ before.length then 0 else larger.size - slot.size
  reindex_mono := monotone_id
  distance_mono := by
    intro left right ordered
    dsimp only
    split_ifs <;> omega
  marked := by
    intro mark index position found
    rcases found.cases with
      ⟨early, inBefore⟩ | ⟨rfl, relative, member, rfl⟩ | ⟨later, rfl, rest, inAfter, rfl⟩
    · rw [if_pos (le_of_lt early)]
      exact inBefore.append_left _
    · rw [if_pos le_rfl]
      exact Marked.of_mem (sameMarks ▸ member)
    · rw [if_neg (by omega)]
      have moved := (inAfter.append_right [larger]).append_right before
      have indexEq : before.length + 1 + later = before.length + (1 + later) := by
        omega
      have positionEq :
          total before + slot.size + rest + (larger.size - slot.size) =
            total before + (larger.size + rest) := by
        omega
      rw [indexEq, positionEq]
      simpa using moved
  within := by
    intro index
    simp only [total_append, total_cons]
    split_ifs <;> omega

/-- Cut a slot in two; the marks stay with the left part. -/
def Shift.cut (before after : Layout Mark) {slot left right : Slot Mark}
    (sameMarks : left.marks = slot.marks)
    (sameSize : left.size + right.size = slot.size) :
    Shift (before ++ slot :: after) (before ++ left :: right :: after) where
  reindex index := if index ≤ before.length then index else index + 1
  distance _ := 0
  reindex_mono := by
    intro left right ordered
    dsimp only
    split_ifs <;> omega
  distance_mono := monotone_const
  marked := by
    intro mark index position found
    rcases found.cases with
      ⟨early, inBefore⟩ | ⟨rfl, relative, member, rfl⟩ | ⟨later, rfl, rest, inAfter, rfl⟩
    · rw [if_pos (le_of_lt early)]
      exact inBefore.append_left _
    · rw [if_pos le_rfl]
      exact Marked.of_mem (sameMarks ▸ member)
    · rw [if_neg (by omega)]
      have moved := (inAfter.append_right [left, right]).append_right before
      have indexEq : before.length + 1 + later + 1 = before.length + (2 + later) := by
        omega
      have positionEq :
          total before + slot.size + rest + 0 = total before + (left.size + right.size + rest) := by
        omega
      rw [indexEq, positionEq]
      simpa using moved
  within := by
    intro index
    simp only [total_append, total_cons]
    omega

/-- Move every mark of a slot to the right by `distance`. -/
def shiftMarks (distance : Nat) (marks : List (Mark × Nat)) : List (Mark × Nat) :=
  marks.map fun mark => (mark.1, mark.2 + distance)

theorem mem_shiftMarks {distance : Nat} {marks : List (Mark × Nat)}
    (member : (mark, relative) ∈ marks) :
    (mark, relative + distance) ∈ shiftMarks distance marks :=
  mem_map.mpr ⟨(mark, relative), member, rfl⟩

/-- Fuse a slot into its left neighbour. -/
def Shift.fuse (before after : Layout Mark) {left right fused : Slot Mark} (joinedMarks :
      fused.marks = left.marks ++ shiftMarks left.size right.marks)
    (joinedSize : fused.size = left.size + right.size) :
    Shift (before ++ left :: right :: after) (before ++ fused :: after) where
  reindex index := if index ≤ before.length then index else index - 1
  distance _ := 0
  reindex_mono := by
    intro left right ordered
    dsimp only
    split_ifs <;> omega
  distance_mono := monotone_const
  marked := by
    intro mark index position found
    rcases found.cases with
      ⟨early, inBefore⟩ | ⟨rfl, relative, member, rfl⟩ | ⟨later, rfl, rest, inAfter, rfl⟩
    · rw [if_pos (le_of_lt early)]
      exact inBefore.append_left _
    · rw [if_pos le_rfl]
      refine Marked.of_mem ?_
      rw [joinedMarks]
      exact mem_append_left _ member
    · rw [if_neg (by omega)]
      have split : Marked (([] : Layout Mark) ++ right :: after) mark later rest := inAfter
      rcases split.cases with
        ⟨early, inBefore⟩ | ⟨rfl, relative, member, rfl⟩ | ⟨further, rfl, tailPosition, inTail, rfl⟩
      · simp at early
      · have joined : (mark, relative + left.size) ∈ fused.marks := by
          rw [joinedMarks]
          exact mem_append_right _ (mem_shiftMarks member)
        have placed : Marked (before ++ fused :: after) mark before.length
              (total before + (relative + left.size)) :=
          Marked.of_mem joined
        have positionEq :
            total before + left.size + (total ([] : Layout Mark) + relative) + 0 =
              total before + (relative + left.size) := by
          simp only [total_nil]
          omega
        rw [positionEq]
        simpa using placed
      · have moved := (inTail.append_right [fused]).append_right before
        have indexEq :
            before.length + 1 + (([] : Layout Mark).length + 1 + further) - 1 =
              before.length + (1 + further) := by
          simp only [length_nil]
          omega
        have positionEq :
            total before + left.size + (total ([] : Layout Mark) + right.size + tailPosition) + 0 =
              total before + (fused.size + tailPosition) := by
          simp only [total_nil]
          omega
        rw [indexEq, positionEq]
        simpa using moved
  within := by
    intro index
    simp only [total_append, total_cons]
    omega

/-- Changing whether a slot is free changes no mark. -/
def Shift.relabel (before after : Layout Mark) {slot relabelled : Slot Mark}
    (sameMarks : relabelled.marks = slot.marks)
    (sameSize : relabelled.size = slot.size) :
    Shift (before ++ slot :: after) (before ++ relabelled :: after) :=
  Shift.grow before after sameMarks (le_of_eq sameSize.symm)

/-- A change that leaves every mark where it is. -/
def Still (source target : Layout Mark) : Prop :=
  ∃ change : Shift source target, ∀ index, change.distance index = 0

namespace Still

theorem shift (still : Still source target) :
    Nonempty (Shift source target) := by
  rcases still with ⟨change, -⟩
  exact ⟨change⟩

theorem refl (layout : Layout Mark) : Still layout layout := ⟨Shift.refl layout, fun _ => rfl⟩

theorem trans (first : Still source middle)
    (second : Still middle target) : Still source target := by
  rcases first with ⟨first, firstStill⟩
  rcases second with ⟨second, secondStill⟩
  refine ⟨first.trans second, fun index => ?_⟩
  show first.distance index + second.distance _ = 0
  rw [firstStill, secondStill]

theorem relabel (before after : Layout Mark) {relabelled : Slot Mark}
    (sameMarks : relabelled.marks = slot.marks) (sameSize : relabelled.size = slot.size) :
    Still (before ++ slot :: after) (before ++ relabelled :: after) := by
  refine ⟨Shift.relabel before after sameMarks sameSize, fun index => ?_⟩
  show (if index ≤ before.length then 0 else relabelled.size - slot.size) = 0
  rw [sameSize, Nat.sub_self, ite_self]

theorem fuse (before after : Layout Mark) {fused : Slot Mark}
    (joinedMarks : fused.marks = left.marks ++ shiftMarks left.size right.marks)
    (joinedSize : fused.size = left.size + right.size) :
    Still (before ++ left :: right :: after) (before ++ fused :: after) :=
  ⟨Shift.fuse before after joinedMarks joinedSize, fun _ => rfl⟩

theorem marked (still : Still source target) (found : Marked source mark index position) :
    ∃ index', Marked target mark index' position := by
  rcases still with ⟨change, isStill⟩
  have moved := change.marked found
  rw [isStill, add_zero] at moved
  exact ⟨_, moved⟩

end Still

/-- Ranges of two different slots, each starting at the start of its slot. -/
theorem Precedes.of_slots (firstMark : (first, 0) ∈ left.marks)
    (secondMark : (second, 0) ∈ right.marks) (fits : size ≤ left.size) :
    Precedes (before ++ left :: (middle ++ right :: after)) first size second := by
  refine ⟨before.length, total before + 0, (before ++ left :: middle).length,
      total (before ++ left :: middle) + 0,
      Marked.of_mem firstMark, ?_, ?_, ?_⟩
  · have placed : Marked ((before ++ left :: middle) ++ right :: after) second
          (before ++ left :: middle).length
          (total (before ++ left :: middle) + 0) :=
      Marked.of_mem secondMark
    simpa using placed
  · simp only [length_append, length_cons]
    omega
  · simp only [total_append, total_cons]
    omega

theorem Inside.of_slot (member : (mark, 0) ∈ slot.marks) (fits : size ≤ slot.size) :
    Inside (before ++ slot :: after) mark size := by
  refine ⟨before.length, total before + 0, Marked.of_mem member, ?_⟩
  simp only [total_append, total_cons]
  omega

end Mnn.Foundation.LinearLayout
