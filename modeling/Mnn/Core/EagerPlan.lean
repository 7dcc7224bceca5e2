import Mnn.Core.EagerBufferAllocator
import Mnn.Foundation.SplitRanges

/-!
# The forest behind the eager allocator

The heap of nodes is read as a forest of split ranges, one tree for every
block that is held.  `Balanced` relates the heap and the lists of the
allocator to the forest: the main free list and the other listed nodes are the
leaves, and `useCount` counts the children that are not in the main free
list.  The moves of the allocator are taking a leaf out of the main list,
splitting a leaf, giving a leaf back, and obtaining or dropping a block.
-/

variable {main others main' others' : List NodeId} {forest before after : Forest} {id x : NodeId}
  {nodes nodes' : NodeId → EagerNode} {nodeCount : Nat}

namespace Mnn.Core.BufferAllocator

open Mnn.Foundation.SplitRanges
open List
open Nat
open EagerBufferAllocator

/-- Places, sizes and parents of the nodes. -/
def shape (nodes : NodeId → EagerNode) : Shape NodeId Nat where
  base id := (nodes id).pointer.1
  start id := (nodes id).pointer.2
  size id := (nodes id).size
  parent id := (nodes id).parent

/-- Idle leaves are those in the main free list. -/
def idleIn (main : List NodeId) (id : NodeId) : Bool :=
  decide (id ∈ main)

abbrev Forest := List (SplitTree NodeId)

def Forest.leaves (forest : Forest) : List NodeId := forest.flatMap SplitTree.leaves

def Forest.ids (forest : Forest) : List NodeId := forest.flatMap SplitTree.ids

/-- `main` is the main free list, `others` are the other listed nodes. -/
structure Balanced
    (nodes : NodeId → EagerNode) (nodeCount : Nat)
    (main others : List NodeId) (forest : Forest) : Prop where
  listed : (main ++ others).Perm forest.leaves
  distinct : forest.ids.Nodup
  created : ∀ id ∈ forest.ids, id < nodeCount
  built : ∀ tree ∈ forest, Built (shape nodes) tree
  rooted : ∀ tree ∈ forest, (nodes tree.root).parent = none
  counted : ∀ tree ∈ forest, Counted (idleIn main) (fun id => (nodes id).useCount) tree

/-! ## One tree of the forest -/

@[simp]
theorem Forest.leaves_cons (tree : SplitTree NodeId) (forest : Forest) :
    Forest.leaves (tree :: forest) = tree.leaves ++ Forest.leaves forest :=
  rfl

@[simp]
theorem Forest.ids_cons (tree : SplitTree NodeId) (forest : Forest) :
    Forest.ids (tree :: forest) = tree.ids ++ Forest.ids forest :=
  rfl

theorem Forest.leaves_middle (before after : Forest) (tree : SplitTree NodeId) :
    (Forest.leaves (before ++ tree :: after)).Perm
      (tree.leaves ++ Forest.leaves (before ++ after)) := by
  simp only [Forest.leaves, flatMap_append, flatMap_cons]
  rw [← append_assoc, ← append_assoc]
  exact perm_append_comm.append_right _

theorem Forest.ids_middle (before after : Forest) (tree : SplitTree NodeId) :
    (Forest.ids (before ++ tree :: after)).Perm (tree.ids ++ Forest.ids (before ++ after)) := by
  simp only [Forest.ids, flatMap_append, flatMap_cons]
  rw [← append_assoc, ← append_assoc]
  exact perm_append_comm.append_right _

theorem Forest.ids_plug (before after : Forest) (frames : List (Frame NodeId))
    (tree : SplitTree NodeId) :
    (Forest.ids (before ++ plug frames tree :: after)).Perm
      (tree.ids ++ (around frames ++ Forest.ids (before ++ after))) := by
  rw [← append_assoc]
  exact (Forest.ids_middle before after _).trans ((plug_ids frames tree).append_right _)

theorem Forest.leaves_sublist (forest : Forest) :
    (Forest.leaves forest).Sublist (Forest.ids forest) := by
  induction forest with
  | nil => exact List.Sublist.refl _
  | cons tree rest ih => exact tree.leaves_sublist.append ih

variable {frames rest : List (Frame NodeId)} {tree : SplitTree NodeId}

section

variable {nodes : NodeId → EagerNode} {nodeCount : Nat} {main others : List NodeId}

theorem Balanced.locate (balanced : Balanced nodes nodeCount main others forest)
    (member : id ∈ main ++ others) :
    ∃ before frames after, forest = before ++ plug frames (.leaf id) :: after := by
  have inLeaves := balanced.listed.subset member
  rcases mem_flatMap.mp inLeaves with ⟨tree, inForest, leaf⟩
  rcases append_of_mem inForest with ⟨before, after, rfl⟩
  rcases exists_plug leaf with ⟨frames, rfl⟩
  exact ⟨before, frames, after, rfl⟩

/-- The nodes of one tree and of the others, and of the frames in it. -/
theorem Balanced.apart
    (balanced : Balanced nodes nodeCount main others (before ++ plug frames tree :: after)) :
    (tree.ids ++ (around frames ++ Forest.ids (before ++ after))).Nodup :=
  (Forest.ids_plug ..).nodup_iff.mp balanced.distinct

end

theorem Balanced.replace {nodeCount' : Nat} {tree' : SplitTree NodeId}
    (balanced : Balanced nodes nodeCount main others (before ++ plug frames tree :: after))
    (sameElsewhere : ∀ id ∈ Forest.ids (before ++ after), nodes' id = nodes id)
    (idleElsewhere : ∀ id ∈ Forest.leaves (before ++ after), idleIn main' id = idleIn main id)
    (listed : (main' ++ others').Perm (tree'.leaves ++
          (aside frames ++ Forest.leaves (before ++ after))))
    (distinct : (tree'.ids ++ (around frames ++ Forest.ids (before ++ after))).Nodup)
    (created : ∀ id ∈ tree'.ids, id < nodeCount') (grown : nodeCount ≤ nodeCount')
    (built : Built (shape nodes') (plug frames tree'))
    (rooted : (nodes' (plug frames tree').root).parent = none)
    (counted : Counted (idleIn main') (fun id => (nodes' id).useCount) (plug frames tree')) :
    Balanced nodes' nodeCount' main' others' (before ++ plug frames tree' :: after) := by
  have allIds := Forest.ids_plug before after frames tree'
  have elsewhere :
      ∀ other, other ∈ before ++ plug frames tree' :: after → other = plug frames tree' ∨
          (other ∈ before ++ plug frames tree :: after ∧ (∀ id ∈ other.ids, nodes' id = nodes id) ∧
            ∀ id ∈ other.leaves, idleIn main' id = idleIn main id) := by
    intro other member
    simp only [mem_append, mem_cons] at member
    have outside :
        other ∈ before ++ after → other ∈ before ++ plug frames tree :: after ∧
            (∀ id ∈ other.ids, nodes' id = nodes id) ∧
            ∀ id ∈ other.leaves, idleIn main' id = idleIn main id := by
      intro otherMember
      refine ⟨?_, ?_, ?_⟩
      · simp only [mem_append, mem_cons] at otherMember ⊢
        tauto
      · intro id inside
        exact sameElsewhere id (mem_flatMap.mpr ⟨other, otherMember, inside⟩)
      · intro id inside
        exact idleElsewhere id (mem_flatMap.mpr ⟨other, otherMember, inside⟩)
    rcases member with early | rfl | late
    · exact Or.inr (outside (mem_append_left _ early))
    · exact Or.inl rfl
    · exact Or.inr (outside (mem_append_right _ late))
  exact
    { listed := by
        refine listed.trans ?_
        rw [← append_assoc]
        exact ((Forest.leaves_middle before after _).trans
            ((plug_leaves frames tree').append_right _)).symm
      distinct := allIds.nodup_iff.mpr distinct
      created := by
        intro id member
        rcases mem_append.mp (allIds.subset member) with inTree | outside
        · exact created id inTree
        · refine Nat.lt_of_lt_of_le (balanced.created id ?_) grown
          exact (Forest.ids_plug ..).symm.subset (mem_append_right _ outside)
      built := by
        intro other member
        rcases elsewhere other member with rfl | ⟨old, same, -⟩
        · exact built
        · apply (balanced.built other old).congr
          intro id inside
          simp only [shape, same id inside, and_self]
      rooted := by
        intro other member
        rcases elsewhere other member with rfl | ⟨old, same, -⟩
        · exact rooted
        · rw [same other.root other.root_mem_ids]
          exact balanced.rooted other old
      counted := by
        intro other member
        rcases elsewhere other member with rfl | ⟨old, same, sameIdle⟩
        · exact counted
        · apply (balanced.counted other old).congr
          · intro id inside
            simp only [same id inside]
          · exact sameIdle }

section

variable {nodes : NodeId → EagerNode} {nodeCount : Nat} {main others : List NodeId}

theorem Balanced.listed_nodup (balanced : Balanced nodes nodeCount main others forest) :
    (main ++ others).Nodup :=
  balanced.listed.nodup_iff.mpr (balanced.distinct.sublist forest.leaves_sublist)

theorem Balanced.other_absent (balanced : Balanced nodes nodeCount main (x :: others) forest) :
    x ∉ main := by
  intro inMain
  have nodup := balanced.listed_nodup
  rw [nodup_append] at nodup
  exact nodup.2.2 x inMain x mem_cons_self rfl

/-- The listed nodes are those below the frames, beside them and elsewhere. -/
theorem Balanced.listed_plug
    (balanced : Balanced nodes nodeCount main others (before ++ plug frames tree :: after)) :
    (main ++ others).Perm (tree.leaves ++ (aside frames ++ Forest.leaves (before ++ after))) := by
  refine balanced.listed.trans ?_
  rw [← append_assoc]
  exact (Forest.leaves_middle before after _).trans ((plug_leaves frames tree).append_right _)

end

theorem aside_sublist (frames : List (Frame NodeId)) : (aside frames).Sublist (around frames) := by
  induction frames with
  | nil => exact List.Sublist.refl _
  | cons frame rest ih =>
    exact (frame.sibling.leaves_sublist.append ih).cons frame.id

theorem Balanced.leaf_apart
    (balanced : Balanced nodes nodeCount main others (before ++ plug frames (.leaf x) :: after)) :
    (∀ id ∈ around frames, id ≠ x) ∧ ∀ id ∈ Forest.ids (before ++ after), id ≠ x := by
  have distinct := balanced.apart
  rw [SplitTree.ids_leaf, singleton_append, nodup_cons, mem_append, not_or] at distinct
  exact ⟨forall_mem_ne'.mpr distinct.1.1, forall_mem_ne'.mpr distinct.1.2⟩

theorem idleIn_congr (same : id ∈ main' ↔ id ∈ main) :
    idleIn main' id = idleIn main id := by
  simp only [idleIn, same]

theorem idleIn_insert (perm : main'.Perm (x :: main)) (other : id ≠ x) :
    idleIn main' id = idleIn main id := by
  apply idleIn_congr
  rw [perm.mem_iff, mem_cons]
  tauto

theorem busy_leaf_of_mem (member : x ∈ main) : busy (idleIn main) (.leaf x) = 0 := by
  simp [busy, idleIn, member]

theorem busy_leaf_of_not_mem (absent : x ∉ main) : busy (idleIn main) (.leaf x) = 1 := by
  simp [busy, idleIn, absent]

theorem eq_leaf_of_busy_eq_zero (notBusy : busy (idleIn main) tree = 0) :
    ∃ y ∈ main, tree = .leaf y := by
  cases tree with
  | leaf y =>
    refine ⟨y, ?_, rfl⟩
    by_contra absent
    rw [busy_leaf_of_not_mem absent] at notBusy
    cases notBusy
  | split id first second => cases notBusy

/-! ## Giving a leaf back -/

variable (allocator : EagerBufferAllocator)

namespace EagerBufferAllocator

theorem insertBySize_perm (id : NodeId) (list : List NodeId) :
    (allocator.insertBySize id list).Perm (id :: list) := by
  simp only [insertBySize]
  refine perm_middle.trans ?_
  rw [takeWhile_append_dropWhile]

/-- Only use counts and the main free list differ. -/
structure Recounted (earlier later : EagerBufferAllocator) : Prop where
  frame :
    later =
      { earlier with
        nodes := later.nodes, mFreeList := later.mFreeList }
  sameShape : ∀ id, later.nodes id = { earlier.nodes id with useCount := (later.nodes id).useCount }

theorem Recounted.refl : Recounted allocator allocator :=
  ⟨rfl, fun _ => rfl⟩

theorem Recounted.trans {earlier middle later : EagerBufferAllocator}
    (first : Recounted earlier middle) (second : Recounted middle later) :
    Recounted earlier later := by
  refine ⟨?_, ?_⟩
  · rw [second.frame, first.frame]
  · intro id
    rw [second.sameShape, first.sameShape]

theorem Recounted.setFree (list : List NodeId) :
    Recounted allocator { allocator with mFreeList := list } :=
  ⟨rfl, fun _ => rfl⟩

theorem setUseCount_nodes (id other : NodeId) (count : Nat) :
    (allocator.setUseCount id count).nodes other =
      if other = id then { allocator.nodes other with useCount := count }
      else allocator.nodes other := by
  simp only [setUseCount, Function.update_apply]
  split_ifs with isId
  · rw [isId]
  · rfl

theorem Recounted.setUseCount (allocator : EagerBufferAllocator) (id : NodeId) (count : Nat) :
    Recounted allocator (allocator.setUseCount id count) := by
  refine ⟨rfl, ?_⟩
  intro other
  rw [setUseCount_nodes]
  split_ifs <;> rfl

/-- Insert a node and merge upwards: one round of the loop. -/
def settle (fuel : Nat) (allocator : EagerBufferAllocator) (node : NodeId) :
    EagerBufferAllocator :=
  let allocator := allocator.insertFree .main node
  match (allocator.nodes node).parent with
  | none => allocator
  | some parent =>
    let useCount := subSize (allocator.nodes parent).useCount 1
    let allocator := allocator.setUseCount parent useCount
    if useCount = 0 then
      mergeUp fuel allocator .main parent
    else
      allocator

theorem returnMemory_eq (node : NodeId) :
    allocator.returnMemory .main node true = settle allocator.nodeCount allocator node := by
  unfold returnMemory settle
  cases parent : (allocator.nodes node).parent with
  | none =>
    have inserted : ((allocator.insertFree .main node).nodes node).parent = none := parent
    simp only [inserted]
  | some parent' =>
    have inserted :
        ((allocator.insertFree .main node).nodes node).parent =
          some parent' :=
      parent
    simp only [inserted]
    rfl

theorem mergeUp_succ (fuel : Nat) (allocator : EagerBufferAllocator) (parent : NodeId) :
    mergeUp (fuel + 1) allocator .main parent = settle fuel
        { allocator with
          mFreeList := allocator.mFreeList.filter fun id =>
              (allocator.nodes id).parent ≠ some parent }
        parent :=
  rfl

end EagerBufferAllocator

/-- What a located leaf with a parent is known to satisfy. -/
structure Inner
    (nodes : NodeId → EagerNode) (main : List NodeId)
    (frame : Frame NodeId) (rest : List (Frame NodeId)) (x : NodeId) :
    Prop where
  filled : Built (shape nodes) (frame.fill (.leaf x))
  outer : BuiltAbove (shape nodes) rest frame.id
  xParent : (nodes x).parent = some frame.id
  siblingParent : (nodes frame.sibling.root).parent = some frame.id
  xCount : (nodes x).useCount = 0
  frameCount :
    (nodes frame.id).useCount = busy (idleIn main) (.leaf x) + busy (idleIn main) frame.sibling
  siblingCounted : Counted (idleIn main) (fun id => (nodes id).useCount) frame.sibling
  outerCounted : CountedAbove (idleIn main) (fun id => (nodes id).useCount) rest 1

variable {frame : Frame NodeId}

theorem Balanced.inner
    (balanced : Balanced nodes nodeCount main others
        (before ++ plug (frame :: rest) (.leaf x) :: after)) :
    Inner nodes main frame rest x := by
  have member : plug (frame :: rest) (.leaf x) ∈
        before ++ plug (frame :: rest) (.leaf x) :: after :=
    mem_append_cons_self
  rcases built_plug.mp (balanced.built _ member) with ⟨-, filled, outer⟩
  rcases counted_plug.mp (balanced.counted _ member) with
    ⟨xCount, ⟨frameCount, -⟩, siblingCounted, outerCounted⟩
  exact
    { filled := filled
      outer := outer
      xParent := filled.fill_parent.1
      siblingParent := filled.fill_parent.2
      xCount := xCount
      frameCount := frameCount
      siblingCounted := siblingCounted
      outerCounted := outerCounted }

/-- The nodes with one use count set. -/
def withUseCount (nodes : NodeId → EagerNode) (id : NodeId) (count : Nat) : NodeId → EagerNode :=
  Function.update nodes id { nodes id with useCount := count }

section

variable (nodes : NodeId → EagerNode)

@[simp]
theorem withUseCount_self (id : NodeId) (count : Nat) :
    withUseCount nodes id count id = { nodes id with useCount := count } :=
  Function.update_self ..

theorem withUseCount_other {other : NodeId} (count : Nat)
    (apart : other ≠ id) :
    withUseCount nodes id count other = nodes other :=
  Function.update_of_ne apart _ _

@[simp]
theorem shape_withUseCount (id : NodeId) (count : Nat) :
    shape (withUseCount nodes id count) = shape nodes := by
  have same :
      ∀ other, withUseCount nodes id count other =
        { nodes other with
          useCount := (withUseCount nodes id count other).useCount } := by
    intro other
    by_cases isId : other = id
    · rw [isId, withUseCount_self]
    · rw [withUseCount_other nodes count isId]
  simp only [shape]
  congr 1
  all_goals
    ext other
    rw [same]

theorem withUseCount_parent (id other : NodeId) (count : Nat) :
    (withUseCount nodes id count other).parent = (nodes other).parent :=
  congrFun (congrArg Shape.parent (shape_withUseCount nodes id count)) other

end

section

variable {nodes : NodeId → EagerNode} {nodeCount : Nat}

theorem Balanced.frame_apart
    (balanced : Balanced nodes nodeCount main others
        (before ++ plug (frame :: rest) tree :: after)) :
    (∀ id ∈ tree.ids, id ≠ frame.id) ∧ (∀ id ∈ frame.sibling.ids, id ≠ frame.id) ∧
        (∀ id ∈ around rest, id ≠ frame.id) ∧
          ∀ id ∈ Forest.ids (before ++ after), id ≠ frame.id := by
  have distinct := balanced.apart
  rw [around_cons, cons_append, append_assoc] at distinct
  have moved := perm_middle.nodup_iff.mp distinct
  simp only [nodup_cons, mem_append, not_or] at moved
  rcases moved.1 with ⟨inTree, inSibling, inRest, inForest⟩
  exact ⟨forall_mem_ne'.mpr inTree, forall_mem_ne'.mpr inSibling, forall_mem_ne'.mpr inRest,
    forall_mem_ne'.mpr inForest⟩

/-- A leaf goes into the main list or out of it, and its parent counts it anew. -/
theorem Balanced.recount {count : Nat}
    (balanced : Balanced nodes nodeCount main others
        (before ++ plug (frame :: rest) (.leaf x) :: after))
    (listed : (main' ++ others').Perm (main ++ others))
    (idle : ∀ id, id ≠ x → idleIn main' id = idleIn main id)
    (isCount : count = busy (idleIn main') (.leaf x) + busy (idleIn main) frame.sibling)
    (positive : 0 < count) :
    Balanced (withUseCount nodes frame.id count) nodeCount main' others'
      (before ++ plug (frame :: rest) (.leaf x) :: after) := by
  have inner := balanced.inner
  have apart := balanced.leaf_apart
  have frameApart := balanced.frame_apart
  rw [around_cons] at apart
  have siblingIdle (id : NodeId) (inside : id ∈ frame.sibling.leaves) :
      idleIn main' id = idleIn main id :=
    idle id (apart.1 id (mem_cons_of_mem _ (mem_append_left _
      (frame.sibling.leaves_sublist.subset inside))))
  have member := mem_append_right before (mem_cons_self (a := plug (frame :: rest) (.leaf x)) (l := after))
  apply balanced.replace
  · intro id inside
    exact withUseCount_other _ _ (frameApart.2.2.2 id inside)
  · intro id inside
    exact idle id (apart.2 id ((Forest.leaves_sublist _).subset inside))
  · exact listed.trans balanced.listed_plug
  · exact balanced.apart
  · intro id inTree
    exact balanced.created id ((Forest.ids_plug ..).symm.subset (mem_append_left _ inTree))
  · exact Nat.le_refl _
  · rw [shape_withUseCount]
    exact balanced.built _ member
  · rw [withUseCount_parent]
    exact balanced.rooted _ member
  · refine counted_plug.mpr ⟨?_, ⟨?_, ?_⟩, ?_, ?_⟩
    · show (withUseCount nodes frame.id _ x).useCount = 0
      rw [withUseCount_other _ _ (frameApart.1 x (mem_singleton_self x))]
      exact inner.xCount
    · show (withUseCount nodes frame.id _ frame.id).useCount = _
      rw [withUseCount_self, busy_congr siblingIdle]
      exact isCount
    · show 0 < (withUseCount nodes frame.id _ frame.id).useCount
      rw [withUseCount_self]
      exact positive
    · apply inner.siblingCounted.congr
      · intro id inside
        simp only [withUseCount_other _ _ (frameApart.2.1 id inside)]
      · exact siblingIdle
    · apply inner.outerCounted.congr
      · intro id inside
        simp only [withUseCount_other _ _ (frameApart.2.2.1 id inside)]
      · intro id inside
        exact idle id (apart.1 id (mem_cons_of_mem _ (mem_append_right _
          ((aside_sublist rest).subset inside))))

/-- The same for a leaf that is a whole tree, which no node counts. -/
theorem Balanced.recount_root
    (balanced : Balanced nodes nodeCount main others (before ++ plug [] (.leaf x) :: after))
    (listed : (main' ++ others').Perm (main ++ others))
    (idle : ∀ id, id ≠ x → idleIn main' id = idleIn main id) :
    Balanced nodes nodeCount main' others' (before ++ plug [] (.leaf x) :: after) := by
  have member := mem_append_right before (mem_cons_self (a := plug [] (.leaf x)) (l := after))
  apply balanced.replace
  · exact fun _ _ => rfl
  · intro id inside
    exact idle id (balanced.leaf_apart.2 id ((Forest.leaves_sublist _).subset inside))
  · exact listed.trans balanced.listed_plug
  · exact balanced.apart
  · intro id inTree
    exact balanced.created id ((Forest.ids_plug ..).symm.subset (mem_append_left _ inTree))
  · exact Nat.le_refl _
  · exact balanced.built _ member
  · exact balanced.rooted _ member
  · exact (counted_plug.mp (balanced.counted _ member)).1

/-- Put a leaf into the main list whose sibling is there: both are merged. -/
theorem Balanced.merge
    (balanced : Balanced nodes nodeCount main (x :: others)
        (before ++ plug (frame :: rest) (.leaf x) :: after)) (inserted : main'.Perm (x :: main))
    (notBusy : busy (idleIn main) frame.sibling = 0) :
    Balanced (withUseCount nodes frame.id 0) nodeCount
      (main'.filter fun id => (nodes id).parent ≠ some frame.id) (frame.id :: others)
      (before ++ plug rest (.leaf frame.id) :: after) := by
  have inner := balanced.inner
  have frameApart := balanced.frame_apart
  rcases eq_leaf_of_busy_eq_zero notBusy with ⟨y, yMember, siblingEq⟩
  have yParent : (nodes y).parent = some frame.id := by
    have siblingParent := inner.siblingParent
    rw [siblingEq] at siblingParent
    exact siblingParent
  -- What is left of the main list once `y` is gone lies beside the outer
  -- frames or elsewhere, so none of it is a child of the merged node.
  have remaining : main.Perm (y :: main.erase y) := perm_cons_erase yMember
  have listed : (main.erase y ++ others).Perm (aside rest ++ Forest.leaves (before ++ after)) := by
    have all := balanced.listed_plug
    rw [aside_cons, siblingEq, SplitTree.leaves_leaf, SplitTree.leaves_leaf] at all
    have front : (main ++ x :: others).Perm (x :: y :: (main.erase y ++ others)) :=
      perm_middle.trans ((remaining.append_right others).cons x)
    exact (front.symm.trans all).cons_inv.cons_inv
  have beside : ∀ id ∈ main.erase y, (nodes id).parent ≠ some frame.id := by
    intro id member parentEq
    have place := listed.subset (mem_append_left others member)
    rcases mem_append.mp place with inRest | inForest
    · rcases inner.outer.parent_mem inRest with ⟨parent, inside, other⟩
      have same : some frame.id = some parent := parentEq.symm.trans other
      cases same
      exact frameApart.2.2.1 _ inside rfl
    · rcases mem_flatMap.mp inForest with ⟨tree, treeMember, leaf⟩
      have inside : tree ∈ before ++ plug (frame :: rest) (.leaf x) :: after := by
        simp only [mem_append, mem_cons] at treeMember ⊢
        tauto
      rcases (balanced.built tree inside).parent_mem leaf with
        whole | ⟨parent, parentMember, other⟩
      · have rooted := balanced.rooted tree inside
        rw [whole, SplitTree.root_leaf, parentEq] at rooted
        cases rooted
      · have same : some frame.id = some parent := parentEq.symm.trans other
        cases same
        exact frameApart.2.2.2 _ (mem_flatMap.mpr ⟨tree, treeMember, parentMember⟩) rfl
  have filtered : (main'.filter fun id => (nodes id).parent ≠ some frame.id).Perm
        (main.erase y) := by
    have both : main'.Perm (x :: y :: main.erase y) := inserted.trans (remaining.cons x)
    refine (both.filter _).trans ?_
    rw [filter_cons_of_neg (by simp [inner.xParent]), filter_cons_of_neg (by simp [yParent]),
      filter_eq_self.mpr]
    intro id member
    simpa using beside id member
  have idle :
      ∀ id, id ≠ y → idleIn (main'.filter fun id => (nodes id).parent ≠ some frame.id) id =
          idleIn main id := by
    intro id notY
    apply idleIn_congr
    rw [filtered.mem_iff, remaining.mem_iff, mem_cons]
    tauto
  have yApart : (∀ id ∈ aside rest, id ≠ y) ∧ ∀ id ∈ Forest.leaves (before ++ after), id ≠ y := by
    have distinct := balanced.apart
    simp only [around_cons, siblingEq, SplitTree.ids_leaf, cons_append, nil_append] at distinct
    have below := (nodup_cons.mp (nodup_cons.mp (nodup_cons.mp distinct).2).2).1
    rw [mem_append, not_or] at below
    exact ⟨forall_mem_ne'.mpr fun member => below.1 ((aside_sublist rest).subset member),
      forall_mem_ne'.mpr fun member => below.2 ((Forest.leaves_sublist _).subset member)⟩
  have member : plug (frame :: rest) (.leaf x) ∈
        before ++ plug (frame :: rest) (.leaf x) :: after :=
    mem_append_cons_self
  have outerBalanced : Balanced nodes nodeCount main (x :: others)
        (before ++ plug rest (frame.fill (.leaf x)) :: after) :=
    balanced
  apply outerBalanced.replace
  · intro id inside
    exact withUseCount_other _ _ (frameApart.2.2.2 id inside)
  · intro id inside
    exact idle id (yApart.2 id inside)
  · rw [SplitTree.leaves_leaf, singleton_append]
    exact perm_middle.trans (((filtered.append_right others).trans listed).cons frame.id)
  · have distinct := balanced.apart
    rw [around_cons, cons_append, append_assoc] at distinct
    have moved := nodup_cons.mp (perm_middle.nodup_iff.mp distinct)
    rw [SplitTree.ids_leaf, singleton_append]
    refine nodup_cons.mpr ⟨?_, ?_⟩
    · intro inside
      exact moved.1 (mem_append_right _ (mem_append_right _ inside))
    · exact (nodup_append.mp (nodup_append.mp moved.2).2.1).2.1
  · intro id inside
    rw [mem_singleton.mp inside]
    exact balanced.created _ ((Forest.ids_plug ..).symm.subset
      (mem_append_right _ (mem_append_left _ mem_cons_self)))
  · exact Nat.le_refl _
  · rw [shape_withUseCount]
    exact built_plug.mpr ⟨trivial, inner.outer⟩
  · have rooted := balanced.rooted _ member
    have sameRoot : (plug rest (.leaf frame.id)).root = (plug (frame :: rest) (.leaf x)).root :=
      plug_root rest (by rw [fill_root]; rfl)
    rw [sameRoot, withUseCount_parent]
    exact rooted
  · refine counted_plug.mpr ⟨?_, ?_⟩
    · show (withUseCount nodes frame.id 0 frame.id).useCount = 0
      rw [withUseCount_self]
    · have outer := inner.outerCounted
      have frameBusy : busy (idleIn (main'.filter fun id =>
                  (nodes id).parent ≠ some frame.id))
              (.leaf frame.id) = 1 := by
        apply busy_leaf_of_not_mem
        intro inMain
        have inForest := listed.subset (mem_append_left others (filtered.subset inMain))
        rcases mem_append.mp inForest with inRest | elsewhere
        · exact frameApart.2.2.1 _ ((aside_sublist rest).subset inRest) rfl
        · exact frameApart.2.2.2 _ ((Forest.leaves_sublist _).subset elsewhere) rfl
      rw [frameBusy]
      refine outer.congr ?_ ?_
      · intro id inside
        simp only [withUseCount_other _ _ (frameApart.2.2.1 id inside)]
      · intro id inside
        exact idle id (yApart.1 id inside)

end

variable {allocator : EagerBufferAllocator}

/--
The loop of `returnMemory` by induction on the frames: either the parent keeps
a busy child, or both children leave the list and the parent takes the place
of the node that is given back.
-/
theorem Balanced.settle {fuel : Nat}
    (balanced : Balanced allocator.nodes allocator.nodeCount allocator.mFreeList
        (x :: others) (before ++ plug frames (.leaf x) :: after)) (enough : frames.length ≤ fuel) :
    Recounted allocator (settle fuel allocator x) ∧
      ∃ outer y, (plug outer (.leaf y)).root = (plug frames (.leaf x)).root ∧ Balanced
          (settle fuel allocator x).nodes allocator.nodeCount (settle fuel allocator x).mFreeList
          others (before ++ plug outer (.leaf y) :: after) := by
  induction frames generalizing allocator x fuel with
  | nil =>
    have inMain := allocator.insertBySize_perm x allocator.mFreeList
    have parent : (allocator.nodes x).parent = none := balanced.rooted (.leaf x) (by simp [plug])
    have settled : settle fuel allocator x = allocator.insertFree .main x := by
      have inserted : ((allocator.insertFree .main x).nodes x).parent = none := parent
      simp only [settle, inserted]
    rw [settled]
    refine ⟨⟨rfl, fun _ => rfl⟩, [], x, rfl, ?_⟩
    exact balanced.recount_root ((inMain.append_right others).trans perm_middle.symm)
      fun _ other => idleIn_insert inMain other
  | cons frame rest ih =>
    have inMain := allocator.insertBySize_perm x allocator.mFreeList
    have xAbsent := balanced.other_absent
    have inner := balanced.inner
    have lowered :
        subSize (allocator.nodes frame.id).useCount 1 =
          busy (idleIn allocator.mFreeList) frame.sibling := by
      rw [inner.frameCount, busy_leaf_of_not_mem xAbsent]
      simp [subSize]
    have settled :
        settle fuel allocator x =
          if busy (idleIn allocator.mFreeList) frame.sibling = 0 then
            mergeUp fuel ((allocator.insertFree .main x).setUseCount frame.id
                (busy (idleIn allocator.mFreeList) frame.sibling))
              .main frame.id
          else
            (allocator.insertFree .main x).setUseCount frame.id
              (busy (idleIn allocator.mFreeList) frame.sibling) := by
      have inserted :
          ((allocator.insertFree .main x).nodes x).parent =
            some frame.id := inner.xParent
      have sameCount :
          ((allocator.insertFree .main x).nodes frame.id).useCount =
            (allocator.nodes frame.id).useCount := rfl
      simp only [settle, inserted, sameCount, lowered]
    rw [settled]
    have recounted : Recounted allocator ((allocator.insertFree .main x).setUseCount frame.id
            (busy (idleIn allocator.mFreeList) frame.sibling)) := by
      have inserted : Recounted allocator (allocator.insertFree .main x) :=
        ⟨rfl, fun _ => rfl⟩
      exact inserted.trans (.setUseCount _ _ _)
    by_cases notBusy : busy (idleIn allocator.mFreeList) frame.sibling = 0
    · rw [if_pos notBusy]
      rw [notBusy] at recounted ⊢
      have merged := balanced.merge inMain notBusy
      cases fuel with
      | zero => cases enough
      | succ fuel =>
        rw [mergeUp_succ]
        generalize laterEq : ((allocator.insertFree .main x).setUseCount frame.id 0) = later
            at recounted
        have listEq : (later.mFreeList.filter fun id =>
                (later.nodes id).parent ≠ some frame.id) =
              (allocator.insertBySize x allocator.mFreeList).filter
                fun id => (allocator.nodes id).parent ≠ some frame.id := by
          have sameParent : ∀ id, (later.nodes id).parent = (allocator.nodes id).parent := by
            intro id
            rw [recounted.sameShape]
          simp only [sameParent]
          rw [← laterEq]
          rfl
        have nodesEq : later.nodes = withUseCount allocator.nodes frame.id 0 := by
          rw [← laterEq]
          rfl
        have countEq : later.nodeCount = allocator.nodeCount := by
          rw [recounted.frame]
        rw [listEq]
        rw [← nodesEq, ← countEq] at merged
        generalize nextEq :
          ({ later with
              mFreeList := (allocator.insertBySize x allocator.mFreeList).filter fun id =>
                    (allocator.nodes id).parent ≠ some frame.id } :
            EagerBufferAllocator) = next
        have pending : Balanced next.nodes next.nodeCount next.mFreeList (frame.id :: others)
              (before ++ plug rest (.leaf frame.id) :: after) := by
          rw [← nextEq]
          exact merged
        have nextRecounted : Recounted later next := by
          rw [← nextEq]
          exact .setFree _ _
        have nextCount : next.nodeCount = allocator.nodeCount := by
          rw [nextRecounted.frame, ← countEq]
        rcases ih pending (le_of_succ_le_succ enough) with
          ⟨climbed, outer, y, rootEq, settledBalanced⟩
        refine ⟨?_, outer, y, ?_, ?_⟩
        · exact (recounted.trans nextRecounted).trans climbed
        · rw [rootEq]
          exact plug_root rest (by rw [fill_root]; rfl)
        · rw [← nextCount]
          exact settledBalanced
    · rw [if_neg notBusy]
      refine ⟨recounted, frame :: rest, x, rfl, ?_⟩
      refine balanced.recount ((inMain.append_right others).trans perm_middle.symm)
        (fun _ other => idleIn_insert inMain other) ?_ (Nat.pos_of_ne_zero notBusy)
      have xIdle := busy_leaf_of_mem (inMain.symm.subset mem_cons_self)
      exact ((congrArg (· + _) xIdle).trans (zero_add _)).symm

theorem Balanced.depth
    (balanced : Balanced nodes nodeCount main others (before ++ plug frames tree :: after)) :
    frames.length ≤ nodeCount := by
  have short : frames.length ≤ (around frames).length := by
    clear balanced
    induction frames with
    | nil => exact Nat.le_refl _
    | cons frame rest ih =>
      rw [around_cons, length_cons, length_cons, length_append]
      exact Nat.succ_le_succ (Nat.le_trans ih (Nat.le_add_left _ _))
  have distinct : (around frames).Nodup :=
    (nodup_append.mp (nodup_append.mp balanced.apart).2.1).1
  have bounded : around frames ⊆ List.range nodeCount := by
    intro id member
    exact mem_range.mpr (balanced.created id ((Forest.ids_plug ..).symm.subset
      (mem_append_right _ (mem_append_left _ member))))
  have subperm := (subperm_of_subset distinct bounded).length_le
  rw [length_range] at subperm
  exact Nat.le_trans short subperm

/-- Giving a leaf back to the main list keeps the forest balanced. -/
theorem Balanced.returnMemory
    (balanced : Balanced allocator.nodes allocator.nodeCount allocator.mFreeList
        (x :: others) forest) :
    Recounted allocator (allocator.returnMemory .main x true) ∧
      ∃ forest' : Forest, forest'.map SplitTree.root = forest.map SplitTree.root ∧
        Balanced (allocator.returnMemory .main x true).nodes allocator.nodeCount
          (allocator.returnMemory .main x true).mFreeList others forest' := by
  rcases balanced.locate (mem_append_cons_self) with
    ⟨before, frames, after, rfl⟩
  rw [returnMemory_eq]
  rcases balanced.settle balanced.depth with
    ⟨recounted, outer, y, rootEq, settled⟩
  refine ⟨recounted, _, ?_, settled⟩
  rw [map_append, map_append, map_cons, map_cons, rootEq]

/-! ## Taking and splitting leaves -/

theorem EagerBufferAllocator.Recounted.useParent (allocator : EagerBufferAllocator) (x : NodeId) :
    Recounted allocator (allocator.useParent x) := by
  unfold EagerBufferAllocator.useParent
  cases (allocator.nodes x).parent with
  | none => exact .refl allocator
  | some parent => exact .setUseCount _ _ _

/-- Taking a leaf out of the main list makes its parent count it. -/
theorem Balanced.take
    (balanced : Balanced allocator.nodes allocator.nodeCount allocator.mFreeList others forest)
    (free : x ∈ allocator.mFreeList) :
    Balanced (allocator.useParent x).nodes allocator.nodeCount
      (allocator.mFreeList.erase x) (x :: others) forest := by
  rcases balanced.locate (mem_append_left _ free) with
    ⟨before, frames, after, rfl⟩
  have removed : allocator.mFreeList.Perm (x :: allocator.mFreeList.erase x) := perm_cons_erase free
  have distinct : (x :: allocator.mFreeList.erase x).Nodup :=
    removed.nodup_iff.mp (nodup_append.mp balanced.listed_nodup).1
  have idle (id : NodeId) (other : id ≠ x) :
      idleIn (allocator.mFreeList.erase x) id = idleIn allocator.mFreeList id :=
    (idleIn_insert removed other).symm
  have listed : (allocator.mFreeList.erase x ++ x :: others).Perm (allocator.mFreeList ++ others) :=
    perm_middle.trans (removed.append_right others).symm
  cases frames with
  | nil =>
    have parent : (allocator.nodes x).parent = none :=
      balanced.rooted (.leaf x) (mem_append_cons_self)
    simp only [useParent, parent]
    exact balanced.recount_root listed idle
  | cons frame rest =>
    have inner := balanced.inner
    have nodesEq : (allocator.useParent x).nodes = withUseCount allocator.nodes frame.id
            ((allocator.nodes frame.id).useCount + 1) := by
      simp only [useParent, inner.xParent]
      rfl
    rw [nodesEq]
    refine balanced.recount listed idle ?_ (succ_pos _)
    rw [inner.frameCount, busy_leaf_of_mem free, busy_leaf_of_not_mem (nodup_cons.mp distinct).1,
      zero_add, add_comm]

/-- The heap after a node was split at `cut`. -/
structure SplitNodes
    (nodes nodes' : NodeId → EagerNode) (nodeCount : Nat)
    (x : NodeId) (cut : Nat) : Prop where
  first : nodes' nodeCount = { parent := some x, size := cut, pointer := (nodes x).pointer }
  second :
    nodes' (nodeCount + 1) =
      { parent := some x
        size := (nodes x).size - cut
        pointer := ((nodes x).pointer.1, (nodes x).pointer.2 + cut) }
  parent : nodes' x = { nodes x with useCount := 1 }
  others : ∀ id < nodeCount, id ≠ x → nodes' id = nodes id

theorem Balanced.split {cut : Nat}
    (balanced : Balanced nodes nodeCount main (x :: others)
        (before ++ plug frames (.leaf x) :: after))
    (splitNodes : SplitNodes nodes nodes' nodeCount x cut) (fits : cut ≤ (nodes x).size)
    (inserted : main'.Perm ((nodeCount + 1) :: main)) :
    Balanced nodes' (nodeCount + 2) main' (nodeCount :: others) (before ++
        plug frames (.split x (.leaf nodeCount) (.leaf (nodeCount + 1))) :: after) := by
  have member : plug frames (.leaf x) ∈ before ++ plug frames (.leaf x) :: after :=
    mem_append_cons_self
  have allIds : (Forest.ids (before ++ plug frames (.leaf x) :: after)).Perm
        ([x] ++ (around frames ++ Forest.ids (before ++ after))) :=
    Forest.ids_plug ..
  have old : ∀ id ∈ x :: (around frames ++ Forest.ids (before ++ after)), id < nodeCount := by
    intro id inside
    exact balanced.created id (allIds.symm.subset inside)
  have apart := balanced.leaf_apart
  have sameNode : ∀ id ∈ around frames ++ Forest.ids (before ++ after), nodes' id = nodes id := by
    intro id inside
    apply splitNodes.others id (old id (mem_cons_of_mem _ inside))
    rcases mem_append.mp inside with inFrames | elsewhere
    · exact apart.1 id inFrames
    · exact apart.2 id elsewhere
  have sameShape :
      ∀ id ∈ Forest.ids (before ++ plug frames (.leaf x) :: after),
        (shape nodes').base id = (shape nodes).base id ∧
          (shape nodes').start id = (shape nodes).start id ∧
          (shape nodes').size id = (shape nodes).size id ∧
          (shape nodes').parent id = (shape nodes).parent id := by
    intro id inside
    rcases mem_cons.mp (allIds.subset inside) with rfl | other
    · simp only [shape, splitNodes.parent, and_self]
    · simp only [shape, sameNode id other, and_self]
  have idle :
      ∀ id ∈ around frames ++ Forest.ids (before ++ after), idleIn main' id = idleIn main id := by
    intro id inside
    apply idleIn_insert inserted
    have bound := old id (mem_cons_of_mem _ inside)
    exact Nat.ne_of_lt (lt_succ_of_lt bound)
  have notFirst : nodeCount ∉ main' := by
    intro inMain
    rcases mem_cons.mp (inserted.subset inMain) with isSecond | inOld
    · exact succ_ne_self _ isSecond.symm
    · have listed := balanced.listed.subset (mem_append_left (x :: others) inOld)
      exact Nat.lt_irrefl _ (balanced.created _ ((Forest.leaves_sublist _).subset listed))
  have oldBuilt := built_plug.mp (balanced.built _ member)
  have oldCounted := counted_plug.mp (balanced.counted _ member)
  have xAbsent := balanced.other_absent
  apply balanced.replace
  · intro id inside
    exact sameNode id (mem_append_right _ inside)
  · intro id inside
    exact idle id (mem_append_right _ ((Forest.leaves_sublist _).subset inside))
  · have listed := balanced.listed_plug
    have middle : (main ++ others).Perm (aside frames ++ Forest.leaves (before ++ after)) :=
      (perm_middle.symm.trans listed).cons_inv
    refine (inserted.append_right _).trans ?_
    refine (perm_middle.cons _).trans ?_
    exact ((middle.cons _).cons _).trans (List.Perm.swap ..)
  · have distinct := balanced.apart
    rw [SplitTree.ids_leaf, singleton_append] at distinct
    show (x :: nodeCount :: (nodeCount + 1) ::
        (around frames ++ Forest.ids (before ++ after))).Nodup
    rcases nodup_cons.mp distinct with ⟨xFresh, rest⟩
    have beyond : ∀ id, nodeCount ≤ id → id ∉ around frames ++ Forest.ids (before ++ after) := by
      intro id large inside
      exact Nat.not_lt_of_le large (old id (mem_cons_of_mem _ inside))
    have xOld := old x mem_cons_self
    refine nodup_cons.mpr ⟨?_, nodup_cons.mpr ⟨?_, ?_⟩⟩
    · simp only [mem_cons, not_or]
      exact ⟨Nat.ne_of_lt xOld, Nat.ne_of_lt (lt_succ_of_lt xOld), xFresh⟩
    · simp only [mem_cons, not_or]
      exact ⟨(Nat.succ_ne_self _).symm, beyond _ (Nat.le_refl _)⟩
    · exact nodup_cons.mpr ⟨beyond _ (le_succ _), rest⟩
  · have xOld := old x mem_cons_self
    intro id inside
    simp only [SplitTree.ids, cons_append, nil_append, mem_cons, not_mem_nil, or_false] at inside
    rcases inside with rfl | rfl | rfl
    · exact Nat.lt_add_right 2 xOld
    · exact Nat.lt_add_of_pos_right (Nat.succ_pos _)
    · exact lt_succ_self _
  · exact le_add_right _ _
  · refine built_plug.mpr ⟨?_, ?_⟩
    · refine ⟨⟨?_, ?_⟩, ⟨?_, ?_⟩, ⟨?_, ?_⟩, ?_, trivial, trivial⟩ <;>
        simp only [shape, SplitTree.root_leaf, splitNodes.first,
          splitNodes.second, splitNodes.parent]
      exact Nat.add_sub_cancel' fits
    · have whole : Built (shape nodes') (plug frames (.leaf x)) := by
        apply (balanced.built _ member).congr
        intro id inside
        apply sameShape id
        exact (Forest.ids_middle before after _).symm.subset (mem_append_left _ inside)
      exact (built_plug.mp whole).2
  · have rooted := balanced.rooted _ member
    have sameRoot : (plug frames (.split x (.leaf nodeCount) (.leaf (nodeCount + 1)))).root =
          (plug frames (.leaf x)).root :=
      plug_root frames rfl
    rw [sameRoot]
    have inIds : (plug frames (.leaf x)).root ∈
          Forest.ids (before ++ plug frames (.leaf x) :: after) :=
      (Forest.ids_middle before after _).symm.subset (mem_append_left _ (SplitTree.root_mem_ids _))
    exact (sameShape _ inIds).2.2.2.trans rooted
  · refine counted_plug.mpr ⟨⟨⟨?_, ?_⟩, ?_, ?_⟩, ?_⟩
    · show (nodes' x).useCount = _
      rw [splitNodes.parent, busy_leaf_of_not_mem notFirst,
        busy_leaf_of_mem (inserted.symm.subset mem_cons_self)]
    · show 0 < (nodes' x).useCount
      rw [splitNodes.parent]
      exact Nat.one_pos
    · show (nodes' nodeCount).useCount = 0
      rw [splitNodes.first]
    · show (nodes' (nodeCount + 1)).useCount = 0
      rw [splitNodes.second]
    · rw [busy_leaf_of_not_mem xAbsent] at oldCounted
      refine oldCounted.2.congr ?_ ?_
      · intro id inside
        simp only [sameNode id (mem_append_left _ inside)]
      · intro id inside
        exact idle id (mem_append_left _ ((aside_sublist _).subset inside))

end Mnn.Core.BufferAllocator
