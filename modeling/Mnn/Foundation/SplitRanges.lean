import Mathlib

/-!
# Ranges that are split and merged

A range is split in two again and again; the leaves of the tree are the ranges
in use, the inner nodes remember what was split.  A tree carries no numbers.
They are maps from its nodes, so that a heap of nodes can be read as a forest:
`Built` says that places and sizes add up and that parent pointers follow the
tree, `Counted` that every inner node counts those of its children which are
not idle leaves.

A position in a tree is a list of frames, innermost first, which is the order
in which a merge climbs.
-/

namespace Mnn.Foundation.SplitRanges

open List

universe u v

/-- A range which is whole, or split into a first and a second part. -/
inductive SplitTree (Id : Type u) where
  | leaf (id : Id)
  | split (id : Id) (first second : SplitTree Id)

namespace SplitTree

variable {Id : Type u}

def root : SplitTree Id → Id
  | .leaf id => id
  | .split id _ _ => id

/-- The leaves from left to right. -/
def leaves : SplitTree Id → List Id
  | .leaf id => [id]
  | .split _ first second => first.leaves ++ second.leaves

/-- All nodes. -/
def ids : SplitTree Id → List Id
  | .leaf id => [id]
  | .split id first second => id :: (first.ids ++ second.ids)

@[simp]
theorem root_leaf (id : Id) : (leaf id).root = id :=
  rfl

@[simp]
theorem root_split (id : Id) (first second : SplitTree Id) : (split id first second).root = id :=
  rfl

@[simp]
theorem leaves_leaf (id : Id) : (leaf id).leaves = [id] :=
  rfl

@[simp]
theorem ids_leaf (id : Id) : (leaf id).ids = [id] :=
  rfl

theorem root_mem_ids (tree : SplitTree Id) : tree.root ∈ tree.ids := by
  cases tree with
  | leaf id => exact mem_singleton_self id
  | split id first second => exact mem_cons_self

theorem leaves_sublist (tree : SplitTree Id) : tree.leaves.Sublist tree.ids := by
  induction tree with
  | leaf id => exact List.Sublist.refl _
  | split id first second firstIH secondIH =>
    exact (firstIH.append secondIH).cons id

end SplitTree

variable {Id : Type u}

/-! ## Positions -/

/-- One step up: the split node, its other child, and on which side we are. -/
structure Frame (Id : Type u) where
  id : Id
  sibling : SplitTree Id
  first : Bool

def Frame.fill (frame : Frame Id) (tree : SplitTree Id) : SplitTree Id :=
  if frame.first then
    .split frame.id tree frame.sibling
  else
    .split frame.id frame.sibling tree

/-- Put a tree back where the frames lead to. -/
def plug : List (Frame Id) → SplitTree Id → SplitTree Id
  | [], tree => tree
  | frame :: rest, tree => plug rest (frame.fill tree)

theorem plug_append (inner outer : List (Frame Id)) (tree : SplitTree Id) :
    plug (inner ++ outer) tree = plug outer (plug inner tree) := by
  induction inner generalizing tree with
  | nil => rfl
  | cons frame rest ih => exact ih (frame.fill tree)

/-- The leaves beside a position. -/
def aside (frames : List (Frame Id)) : List Id := frames.flatMap fun frame => frame.sibling.leaves

/-- The nodes around a position. -/
def around (frames : List (Frame Id)) : List Id :=
  frames.flatMap fun frame => frame.id :: frame.sibling.ids

@[simp]
theorem aside_nil : aside ([] : List (Frame Id)) = [] :=
  rfl

variable (frame : Frame Id)

@[simp]
theorem aside_cons (rest : List (Frame Id)) :
    aside (frame :: rest) = frame.sibling.leaves ++ aside rest :=
  rfl

@[simp]
theorem around_nil : around ([] : List (Frame Id)) = [] :=
  rfl

@[simp]
theorem around_cons (rest : List (Frame Id)) :
    around (frame :: rest) = frame.id :: (frame.sibling.ids ++ around rest) :=
  rfl

@[simp]
theorem fill_root (tree : SplitTree Id) : (frame.fill tree).root = frame.id := by
  unfold Frame.fill
  split_ifs <;> rfl

theorem fill_leaves (tree : SplitTree Id) :
    (frame.fill tree).leaves.Perm (tree.leaves ++ frame.sibling.leaves) := by
  unfold Frame.fill
  split_ifs
  · exact List.Perm.refl _
  · exact perm_append_comm

theorem fill_ids (tree : SplitTree Id) : (frame.fill tree).ids.Perm
      (tree.ids ++ frame.id :: frame.sibling.ids) := by
  have moved : (frame.id :: (tree.ids ++ frame.sibling.ids)).Perm
        (tree.ids ++ frame.id :: frame.sibling.ids) :=
    perm_middle.symm
  unfold Frame.fill
  split_ifs
  · exact moved
  · exact (perm_append_comm.cons frame.id).trans moved

variable (frames : List (Frame Id))

theorem plug_leaves (tree : SplitTree Id) :
    (plug frames tree).leaves.Perm (tree.leaves ++ aside frames) := by
  induction frames generalizing tree with
  | nil =>
    rw [aside_nil, append_nil]
    exact List.Perm.refl _
  | cons frame rest ih =>
    rw [aside_cons, ← append_assoc]
    exact (ih (frame.fill tree)).trans ((fill_leaves frame tree).append_right _)

theorem plug_ids (tree : SplitTree Id) :
    (plug frames tree).ids.Perm (tree.ids ++ around frames) := by
  induction frames generalizing tree with
  | nil =>
    rw [around_nil, append_nil]
    exact List.Perm.refl _
  | cons frame rest ih =>
    rw [around_cons, ← cons_append, ← append_assoc]
    exact (ih (frame.fill tree)).trans ((fill_ids frame tree).append_right _)

variable {tree : SplitTree Id}

theorem exists_plug {id : Id} (member : id ∈ tree.leaves) :
    ∃ frames, tree = plug frames (.leaf id) := by
  induction tree with
  | leaf other =>
    rw [SplitTree.leaves_leaf, mem_singleton] at member
    exact ⟨[], by rw [member]; rfl⟩
  | split other first second firstIH secondIH =>
    rcases mem_append.mp member with inFirst | inSecond
    · rcases firstIH inFirst with ⟨frames, rfl⟩
      refine ⟨frames ++ [⟨other, second, true⟩], ?_⟩
      rw [plug_append]
      rfl
    · rcases secondIH inSecond with ⟨frames, rfl⟩
      refine ⟨frames ++ [⟨other, first, false⟩], ?_⟩
      rw [plug_append]
      rfl

variable {tree : SplitTree Id}

theorem plug_root {other : SplitTree Id} (same : tree.root = other.root) :
    (plug frames tree).root = (plug frames other).root := by
  induction frames generalizing tree other with
  | nil => exact same
  | cons frame rest ih =>
    apply ih
    rw [fill_root, fill_root]

/-! ## Places and parents -/

/-- What the heap says about the place of its nodes. -/
structure Shape (Id : Type u) (Base : Type v) where
  base : Id → Base
  start : Id → Nat
  size : Id → Nat
  parent : Id → Option Id

variable {Base : Type v}

/-- The parts of a split range lie side by side and make up the range. -/
def Built (shape : Shape Id Base) : SplitTree Id → Prop
  | .leaf _ => True
  | .split id first second =>
    (shape.parent first.root = some id ∧ shape.parent second.root = some id) ∧
      (shape.base first.root = shape.base id ∧ shape.base second.root = shape.base id) ∧
        (shape.start first.root = shape.start id ∧ shape.start second.root =
              shape.start id + shape.size first.root) ∧
          shape.size first.root + shape.size second.root = shape.size id ∧
            Built shape first ∧ Built shape second

/-- The frames are built over a child with the given root. -/
def BuiltAbove (shape : Shape Id Base) : List (Frame Id) → Id → Prop
  | [], _ => True
  | frame :: rest, child =>
    Built shape (frame.fill (.leaf child)) ∧ BuiltAbove shape rest frame.id

variable {shape : Shape Id Base}

theorem built_fill {frame : Frame Id} :
    Built shape (frame.fill tree) ↔
      Built shape tree ∧ Built shape (frame.fill (.leaf tree.root)) := by
  cases side : frame.first with
  | true =>
    simp only [Frame.fill, side, if_true, Built, SplitTree.root_leaf]
    tauto
  | false =>
    simp only [Frame.fill, side, Bool.false_eq_true, if_false, Built, SplitTree.root_leaf]
    tauto

variable {frames : List (Frame Id)}

theorem built_plug :
    Built shape (plug frames tree) ↔ Built shape tree ∧ BuiltAbove shape frames tree.root := by
  induction frames generalizing tree with
  | nil => simp [plug, BuiltAbove]
  | cons frame rest ih =>
    rw [plug, ih, built_fill, fill_root, BuiltAbove, and_assoc]

theorem Built.congr {shape shape' : Shape Id Base} (built : Built shape tree)
    (same :
      ∀ id ∈ tree.ids, shape'.base id = shape.base id ∧ shape'.start id = shape.start id ∧
          shape'.size id = shape.size id ∧ shape'.parent id = shape.parent id) :
    Built shape' tree := by
  induction tree with
  | leaf id => trivial
  | split id first second firstIH secondIH =>
    rcases built with ⟨parents, bases, starts, sizes, inFirst, inSecond⟩
    have atId := same id mem_cons_self
    have firstSame : ∀ other ∈ first.ids, other ∈ (SplitTree.split id first second).ids :=
      fun other member =>
        mem_cons_of_mem _ (mem_append_left _ member)
    have secondSame : ∀ other ∈ second.ids, other ∈ (SplitTree.split id first second).ids :=
      fun other member =>
        mem_cons_of_mem _ (mem_append_right _ member)
    have atFirst := same first.root (firstSame _ first.root_mem_ids)
    have atSecond := same second.root (secondSame _ second.root_mem_ids)
    rw [Built, atFirst.1, atFirst.2.1, atFirst.2.2.1, atFirst.2.2.2,
      atSecond.1, atSecond.2.1, atSecond.2.2.1, atSecond.2.2.2, atId.1,
      atId.2.1, atId.2.2.1]
    exact ⟨parents, bases, starts, sizes, firstIH inFirst fun other member =>
          same other (firstSame other member),
        secondIH inSecond fun other member =>
          same other (secondSame other member)⟩

/-- Nodes which follow each other without gap or overlap. -/
def Tiles (start size : Id → Nat) : Nat → List Id → Nat → Prop
  | first, [], last => first = last
  | first, id :: rest, last =>
    start id = first ∧ Tiles start size (first + size id) rest last

variable {start size : Id → Nat} {first last : Nat}

theorem Tiles.append {middle : Nat} {front back : List Id}
    (frontTiles : Tiles start size first front middle)
    (backTiles : Tiles start size middle back last) :
    Tiles start size first (front ++ back) last := by
  induction front generalizing first with
  | nil =>
    cases frontTiles
    exact backTiles
  | cons id rest ih =>
    exact ⟨frontTiles.1, ih frontTiles.2⟩

theorem Built.tiles (built : Built shape tree) :
    Tiles shape.start shape.size (shape.start tree.root) tree.leaves
      (shape.start tree.root + shape.size tree.root) := by
  induction tree with
  | leaf id => exact ⟨rfl, rfl⟩
  | split id first second firstIH secondIH =>
    rcases built with
      ⟨-, -, ⟨firstStart, secondStart⟩, sizes, inFirst, inSecond⟩
    have front := firstIH inFirst
    have back := secondIH inSecond
    rw [secondStart, Nat.add_assoc, sizes] at back
    rw [firstStart] at front
    exact front.append back

theorem Built.base {shape : Shape Id Base} (built : Built shape tree) :
    ∀ id ∈ tree.leaves, shape.base id = shape.base tree.root := by
  induction tree with
  | leaf id =>
    intro other member
    rw [mem_singleton.mp member]
    rfl
  | split id first second firstIH secondIH =>
    rcases built with
      ⟨-, ⟨firstBase, secondBase⟩, -, -, inFirst, inSecond⟩
    intro other member
    rcases mem_append.mp member with early | late
    · exact (firstIH inFirst other early).trans firstBase
    · exact (secondIH inSecond other late).trans secondBase

theorem Tiles.le {ids : List Id} (tiles : Tiles start size first ids last) : first ≤ last := by
  induction ids generalizing first with
  | nil => exact Nat.le_of_eq tiles
  | cons id rest ih =>
    exact Nat.le_trans (Nat.le_add_right _ _) (ih tiles.2)

theorem Tiles.inside {start size : Id → Nat} {ids : List Id}
    (tiles : Tiles start size first ids last) :
    ∀ id ∈ ids, first ≤ start id ∧ start id + size id ≤ last := by
  induction ids generalizing first with
  | nil =>
    intro id member
    cases member
  | cons head rest ih =>
    intro id member
    rcases tiles with ⟨rfl, tiles⟩
    rcases mem_cons.mp member with rfl | later
    · exact ⟨Nat.le_refl _, tiles.le⟩
    · have inside := ih tiles id later
      exact ⟨Nat.le_trans (Nat.le_add_right _ _) inside.1, inside.2⟩

theorem Tiles.pairwise {ids : List Id} (tiles : Tiles start size first ids last) :
    ids.Pairwise fun left right => start left + size left ≤ start right := by
  induction ids generalizing first with
  | nil => exact List.Pairwise.nil
  | cons head rest ih =>
    rcases tiles with ⟨rfl, tiles⟩
    refine List.Pairwise.cons ?_ (ih tiles)
    intro id member
    exact (tiles.inside id member).1

/-- The parent of a leaf is a node of the tree, unless the leaf is the tree. -/
theorem Built.parent_mem (built : Built shape tree) {id : Id} (member : id ∈ tree.leaves) :
    tree = .leaf id ∨ ∃ parent ∈ tree.ids, shape.parent id = some parent := by
  induction tree with
  | leaf other =>
    rw [mem_singleton.mp member]
    exact Or.inl rfl
  | split other first second firstIH secondIH =>
    right
    rcases built with ⟨⟨firstParent, secondParent⟩, -, -, -, inFirst, inSecond⟩
    rcases mem_append.mp member with early | late
    · rcases firstIH inFirst early with whole | ⟨parent, inside, parentEq⟩
      · rw [whole] at firstParent
        exact ⟨other, mem_cons_self, firstParent⟩
      · exact ⟨parent, mem_cons_of_mem _ (mem_append_left _ inside), parentEq⟩
    · rcases secondIH inSecond late with whole | ⟨parent, inside, parentEq⟩
      · rw [whole] at secondParent
        exact ⟨other, mem_cons_self, secondParent⟩
      · exact ⟨parent, mem_cons_of_mem _ (mem_append_right _ inside), parentEq⟩

theorem BuiltAbove.parent_mem {shape : Shape Id Base} {child id : Id}
    (above : BuiltAbove shape frames child) (member : id ∈ aside frames) :
    ∃ parent ∈ around frames, shape.parent id = some parent := by
  induction frames generalizing child with
  | nil => cases member
  | cons frame rest ih =>
    rcases above with ⟨filled, outer⟩
    rw [around_cons]
    rcases mem_append.mp member with here | further
    · have inFill : id ∈ (frame.fill (.leaf child)).leaves := by
        refine (fill_leaves frame _).symm.subset ?_
        exact mem_append_right _ here
      have sibling :
          Built shape frame.sibling ∧ shape.parent frame.sibling.root = some frame.id := by
        cases side : frame.first with
        | true =>
          simp only [Frame.fill, side, if_true, Built] at filled
          exact ⟨filled.2.2.2.2.2, filled.1.2⟩
        | false =>
          simp only [Frame.fill, side, Bool.false_eq_true, if_false, Built] at filled
          exact ⟨filled.2.2.2.2.1, filled.1.1⟩
      rcases sibling.1.parent_mem here with
        whole | ⟨parent, inside, parentEq⟩
      · rw [whole] at sibling
        exact ⟨frame.id, mem_cons_self, sibling.2⟩
      · exact ⟨parent, mem_cons_of_mem _ (mem_append_left _ inside), parentEq⟩
    · rcases ih outer further with ⟨parent, inside, parentEq⟩
      exact ⟨parent, mem_cons_of_mem _ (mem_append_right _ inside), parentEq⟩

theorem Built.fill_parent {frame : Frame Id} (built : Built shape (frame.fill tree)) :
    shape.parent tree.root = some frame.id ∧ shape.parent frame.sibling.root = some frame.id := by
  cases side : frame.first with
  | true =>
    simp only [Frame.fill, side, if_true, Built] at built
    exact ⟨built.1.1, built.1.2⟩
  | false =>
    simp only [Frame.fill, side, Bool.false_eq_true, if_false, Built] at built
    exact ⟨built.1.2, built.1.1⟩

/-! ## Counting the children in use -/

variable (idle : Id → Bool)

/-- A child counts unless it is an idle leaf. -/
def busy : SplitTree Id → Nat
  | .leaf id => if idle id then 0 else 1
  | .split _ _ _ => 1

/--
Every leaf counts nothing, and every split node counts its busy children, of
which there is at least one.
-/
def Counted (count : Id → Nat) : SplitTree Id → Prop
  | .leaf id => count id = 0
  | .split id first second =>
    (count id = busy idle first + busy idle second ∧ 0 < count id) ∧
      Counted count first ∧ Counted count second

/-- The frames count a child which is busy or not. -/
def CountedAbove (count : Id → Nat) : List (Frame Id) → Nat → Prop
  | [], _ => True
  | frame :: rest, below =>
    (count frame.id = below + busy idle frame.sibling ∧ 0 < count frame.id) ∧
      Counted idle count frame.sibling ∧ CountedAbove count rest 1

variable {idle}

@[simp]
theorem busy_fill (tree : SplitTree Id) : busy idle (frame.fill tree) = 1 := by
  unfold Frame.fill
  split_ifs <;> rfl

variable {count count' : Id → Nat}

theorem counted_plug :
    Counted idle count (plug frames tree) ↔ Counted idle count tree ∧
        CountedAbove idle count frames (busy idle tree) := by
  induction frames generalizing tree with
  | nil => simp [plug, CountedAbove]
  | cons frame rest ih =>
    rw [plug, ih, busy_fill, CountedAbove]
    cases side : frame.first with
    | true =>
      simp only [Frame.fill, side, if_true, Counted]
      tauto
    | false =>
      simp only [Frame.fill, side, Bool.false_eq_true, if_false, Counted,
        Nat.add_comm (busy idle frame.sibling)]
      tauto

variable {idle' : Id → Bool}

theorem busy_congr (same : ∀ id ∈ tree.leaves, idle' id = idle id) :
    busy idle' tree = busy idle tree := by
  cases tree with
  | leaf id =>
    rw [busy, busy, same id (mem_singleton_self id)]
  | split id first second => rfl

theorem Counted.congr (counted : Counted idle count tree)
    (sameCount : ∀ id ∈ tree.ids, count' id = count id)
    (sameIdle : ∀ id ∈ tree.leaves, idle' id = idle id) :
    Counted idle' count' tree := by
  induction tree with
  | leaf id =>
    exact (sameCount id (mem_singleton_self id)).trans counted
  | split id first second firstIH secondIH =>
    rcases counted with ⟨here, inFirst, inSecond⟩
    have firstIdle : ∀ id ∈ first.leaves, idle' id = idle id :=
      fun other member => sameIdle other (mem_append_left _ member)
    have secondIdle : ∀ id ∈ second.leaves, idle' id = idle id :=
      fun other member => sameIdle other (mem_append_right _ member)
    rw [Counted, sameCount id mem_cons_self, busy_congr firstIdle, busy_congr secondIdle]
    refine ⟨here, firstIH inFirst ?_ firstIdle, secondIH inSecond ?_ secondIdle⟩
    · intro other member
      exact sameCount other (mem_cons_of_mem _ (mem_append_left _ member))
    · intro other member
      exact sameCount other (mem_cons_of_mem _ (mem_append_right _ member))

theorem CountedAbove.congr {below : Nat} (counted : CountedAbove idle count frames below)
    (sameCount : ∀ id ∈ around frames, count' id = count id)
    (sameIdle : ∀ id ∈ aside frames, idle' id = idle id) :
    CountedAbove idle' count' frames below := by
  induction frames generalizing below with
  | nil => trivial
  | cons frame rest ih =>
    rcases counted with ⟨here, sibling, outer⟩
    rw [around_cons] at sameCount
    rw [aside_cons] at sameIdle
    have siblingIdle : ∀ id ∈ frame.sibling.leaves, idle' id = idle id :=
      fun other member => sameIdle other (mem_append_left _ member)
    rw [CountedAbove, sameCount frame.id mem_cons_self, busy_congr siblingIdle]
    refine ⟨here, sibling.congr ?_ siblingIdle, ih outer ?_ ?_⟩
    · intro other member
      exact sameCount other (mem_cons_of_mem _ (mem_append_left _ member))
    · intro other member
      exact sameCount other (mem_cons_of_mem _ (mem_append_right _ member))
    · intro other member
      exact sameIdle other (mem_append_right _ member)

end Mnn.Foundation.SplitRanges
