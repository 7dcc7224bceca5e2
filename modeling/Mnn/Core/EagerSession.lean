import Mnn.Core.EagerPlan
import Mnn.Foundation.Runs

/-!
# Sessions of the eager allocator

A session is the allocator with a client who frees only what it holds and an
outer allocator whose answers are disjoint from the blocks that are held.
Groups may be opened and closed in any order; properly bracketed ones are a
special case.  `EagerSound` collects what holds between two calls: the forest
is balanced, the blocks lie apart, and every chunk of the client lies inside a
used leaf of its own.
-/

variable {allocator earlier later : EagerBufferAllocator} {firstSize secondSize nodeCount : Nat}
  {entries : List Entry} {main others : List NodeId} {nodes : NodeId → EagerNode}

namespace Mnn.Core.BufferAllocator

open Mnn.Foundation.SplitRanges
open List

variable {forest : Forest} {live : List (Pointer × Nat)}

/-! ## The client -/

/-- The allocator and the chunks which the client holds, with their sizes. -/
structure EagerSession where
  allocator : EagerBufferAllocator
  live : List (Pointer × Nat) := []

/-- `answer` is what the outer allocator would return for this request. -/
inductive EagerCall where
  | alloc (size : Nat) (separate : Bool) (align : Nat) (answer : Pointer)
  | free (pointer : Pointer)
  | beginGroup
  | endGroup
  | barrierBegin
  | barrierEnd
  | release

/-- Two ranges with a base do not meet. -/
def RangesApart (first : Pointer) (firstSize : Nat) (second : Pointer) (secondSize : Nat) : Prop :=
  first.1 ≠ second.1 ∨ first.2 + firstSize ≤ second.2 ∨ second.2 + secondSize ≤ first.2

instance
    (first : Pointer) (firstSize : Nat)
    (second : Pointer) (secondSize : Nat) :
    Decidable (RangesApart first firstSize second secondSize) :=
  inferInstanceAs (Decidable (_ ∨ _ ∨ _))

/-- The outer allocator fails or returns a block apart from those held. -/
def EagerBufferAllocator.ValidAnswer
    (allocator : EagerBufferAllocator) (size : Nat) (answer : Pointer) :
    Prop :=
  answer.1 = 0 ∨ ∀ block ∈ allocator.blocks, RangesApart answer (allocator.allocSize size)
        (allocator.nodes block).pointer (allocator.nodes block).size

instance
    (allocator : EagerBufferAllocator) (size : Nat) (answer : Pointer) :
    Decidable (allocator.ValidAnswer size answer) :=
  inferInstanceAs (Decidable (_ ∨ _))

namespace EagerSession

def start (align minAllocSize : Nat) : EagerSession where
  allocator := { mAlign := align, mMinAllocSize := minAllocSize }

/-- One call, with the destruction of what it left unreferenced. -/
def call (session : EagerSession) : EagerCall → Option EagerSession
  | .alloc size separate align answer =>
    if size = 0 ∨ ¬session.allocator.ValidAnswer size answer then
      none
    else
      match session.allocator.alloc size separate align answer with
      | none => none
      | some (pointer, allocator) =>
        some
          { allocator := allocator.sweep
            live :=
              if pointer.1 = 0 then session.live
              else (pointer, size) :: session.live }
  | .free pointer =>
    if pointer ∈ session.live.map Prod.fst then
      some
        { allocator := (session.allocator.free pointer).2.sweep
          live := session.live.filter fun chunk => chunk.1 ≠ pointer }
    else
      none
  | .beginGroup =>
    some { session with allocator := session.allocator.beginGroup.sweep }
  | .endGroup =>
    some { session with allocator := session.allocator.endGroup.sweep }
  | .barrierBegin => some session
  | .barrierEnd =>
    if session.allocator.mCurrentFreeList = none then
      some { session with allocator := session.allocator.barrierEnd.sweep }
    else
      none
  | .release =>
    some { session with allocator := session.allocator.release.sweep }

/-- The chunks held are disjoint and lie inside blocks that are held. -/
structure Separated (session : EagerSession) : Prop where
  apart : session.live.Pairwise fun first second =>
      RangesApart first.1 first.2 second.1 second.2
  inside :
    ∀ chunk ∈ session.live, ∃ block ∈ session.allocator.blocks,
        (session.allocator.nodes block).pointer.1 = chunk.1.1 ∧
          (session.allocator.nodes block).pointer.2 ≤ chunk.1.2 ∧ chunk.1.2 + chunk.2 ≤
              (session.allocator.nodes block).pointer.2 + (session.allocator.nodes block).size

end EagerSession

/-! ## The invariant -/

/-- A chunk with the node that is used for it. -/
structure Entry where
  pointer : Pointer
  node : NodeId
  size : Nat

/-- The chunk is not empty and lies inside its node. -/
structure Entry.Fits
    (entry : Entry) (nodes : NodeId → EagerNode) : Prop where
  positive : 0 < entry.size
  base : (nodes entry.node).pointer.1 = entry.pointer.1
  first : (nodes entry.node).pointer.2 ≤ entry.pointer.2
  last : entry.pointer.2 + entry.size ≤ (nodes entry.node).pointer.2 + (nodes entry.node).size

/-- The used list is what the client holds. -/
structure Clients
    (nodes : NodeId → EagerNode) (used : List (Pointer × NodeId))
    (live : List (Pointer × Nat)) (entries : List Entry) : Prop where
  used : used = entries.map fun entry => (entry.pointer, entry.node)
  live : live = entries.map fun entry => (entry.pointer, entry.size)
  distinct : (entries.map Entry.pointer).Nodup
  fits : ∀ entry ∈ entries, entry.Fits nodes

/-- The ranges of two nodes do not meet. -/
def NodesApart (nodes : NodeId → EagerNode) (first second : NodeId) : Prop :=
  RangesApart (nodes first).pointer (nodes first).size (nodes second).pointer (nodes second).size

/-- What holds of the root nodes. -/
structure SoundBlocks (allocator : EagerBufferAllocator) : Prop where
  apart : allocator.blocks.Pairwise (NodesApart allocator.nodes)
  nonNull : ∀ block ∈ allocator.blocks, (allocator.nodes block).pointer.1 ≠ 0
  total :
    allocator.mTotalSize = (allocator.blocks.map fun block => (allocator.nodes block).size).sum
  once : (allocator.released ++ allocator.blocks).Nodup
  created : ∀ block ∈ allocator.released ++ allocator.blocks, block < allocator.nodeCount

/-- What holds between two calls. -/
structure EagerSound
    (allocator : EagerBufferAllocator) (live : List (Pointer × Nat))
    (forest : Forest) : Prop where
  balanced : Balanced allocator.nodes allocator.nodeCount allocator.mFreeList
      (allocator.mUsedList.map Prod.snd ++ allocator.mGroups.flatten) forest
  roots : allocator.blocks.Perm (forest.map SplitTree.root)
  blocks : SoundBlocks allocator
  clients : ∃ entries, Clients allocator.nodes allocator.mUsedList live entries
  group : ∀ index, allocator.mCurrentFreeList = some index → index < allocator.mGroups.length

theorem RangesApart.symm {first second : Pointer}
    (apart : RangesApart first firstSize second secondSize) :
    RangesApart second secondSize first firstSize := by
  rcases apart with base | before | after
  · exact Or.inl base.symm
  · exact Or.inr (Or.inr before)
  · exact Or.inr (Or.inl after)

instance (nodes : NodeId → EagerNode) : Std.Symm (NodesApart nodes) where
  symm _ _ apart := RangesApart.symm apart

theorem RangesApart.shrink {first second first' second' : Pointer} {firstSize' secondSize' : Nat}
    (apart : RangesApart first firstSize second secondSize) (firstBase : first'.1 = first.1)
    (firstInside :
      first.2 ≤ first'.2 ∧ first'.2 + firstSize' ≤ first.2 + firstSize)
    (secondBase : second'.1 = second.1)
    (secondInside : second.2 ≤ second'.2 ∧ second'.2 + secondSize' ≤ second.2 + secondSize) :
    RangesApart first' firstSize' second' secondSize' := by
  rcases apart with base | before | after
  · left
    rw [firstBase, secondBase]
    exact base
  · right
    left
    omega
  · right
    right
    omega

theorem Balanced.leaf_inside (balanced : Balanced nodes nodeCount main others forest)
    {tree : SplitTree NodeId} (inForest : tree ∈ forest) {id : NodeId} (leaf : id ∈ tree.leaves) :
    (nodes id).pointer.1 = (nodes tree.root).pointer.1 ∧
      (nodes tree.root).pointer.2 ≤ (nodes id).pointer.2 ∧ (nodes id).pointer.2 + (nodes id).size ≤
          (nodes tree.root).pointer.2 + (nodes tree.root).size := by
  have built := balanced.built tree inForest
  exact ⟨built.base id leaf, built.tiles.inside id leaf⟩

theorem EagerSound.leaves_apart (sound : EagerSound allocator live forest) {x y : NodeId}
    (xLeaf : x ∈ Forest.leaves forest) (yLeaf : y ∈ Forest.leaves forest) (different : x ≠ y) :
    NodesApart allocator.nodes x y := by
  rcases mem_flatMap.mp xLeaf with ⟨xTree, xInForest, xMember⟩
  rcases mem_flatMap.mp yLeaf with ⟨yTree, yInForest, yMember⟩
  have xInside := sound.balanced.leaf_inside xInForest xMember
  have yInside := sound.balanced.leaf_inside yInForest yMember
  have rootsDistinct : (forest.map SplitTree.root).Nodup :=
    sound.roots.nodup_iff.mp (nodup_append.mp sound.blocks.once).2.1
  by_cases sameRoot : xTree.root = yTree.root
  · have sameTree : xTree = yTree := inj_on_of_nodup_map rootsDistinct xInForest yInForest sameRoot
    subst sameTree
    have ordered := (sound.balanced.built xTree xInForest).tiles.pairwise
    have apart : xTree.leaves.Pairwise (NodesApart allocator.nodes) :=
      ordered.imp fun before => Or.inr (Or.inl before)
    exact apart.forall xMember yMember different
  · have inBlocks : ∀ tree ∈ forest, tree.root ∈ allocator.blocks := by
      intro tree member
      exact sound.roots.symm.subset (mem_map_of_mem member)
    have apart := sound.blocks.apart.forall (inBlocks xTree xInForest)
        (inBlocks yTree yInForest) sameRoot
    exact apart.shrink xInside.1 ⟨xInside.2.1, xInside.2.2⟩ yInside.1 ⟨yInside.2.1, yInside.2.2⟩

theorem EagerSound.entry_leaf (sound : EagerSound allocator live forest)
    (clients : Clients allocator.nodes allocator.mUsedList live entries) :
    (entries.map Entry.node).Nodup ∧ ∀ entry ∈ entries, entry.node ∈ Forest.leaves forest := by
  have used : allocator.mUsedList.map Prod.snd = entries.map Entry.node := by
    rw [clients.used, map_map]
    rfl
  constructor
  · rw [← used]
    have nodup := (nodup_append.mp sound.balanced.listed_nodup).2.1
    exact (nodup_append.mp nodup).1
  · intro entry member
    apply sound.balanced.listed.subset
    refine mem_append_right _ (mem_append_left _ ?_)
    rw [used]
    exact mem_map_of_mem member

theorem EagerSound.separated {session : EagerSession}
    (sound : EagerSound session.allocator session.live forest) :
    session.Separated := by
  rcases sound.clients with ⟨entries, clients⟩
  rcases sound.entry_leaf clients with ⟨distinct, leaves⟩
  constructor
  · rw [clients.live, pairwise_map]
    have ordered := pairwise_map.mp distinct
    refine ordered.imp_of_mem ?_
    intro first second firstMember secondMember different
    have apart := sound.leaves_apart (leaves first firstMember)
        (leaves second secondMember) different
    have firstFits := clients.fits first firstMember
    have secondFits := clients.fits second secondMember
    exact apart.shrink firstFits.base.symm ⟨firstFits.first, firstFits.last⟩
        secondFits.base.symm ⟨secondFits.first, secondFits.last⟩
  · intro chunk member
    rw [clients.live] at member
    rcases mem_map.mp member with ⟨entry, entryMember, rfl⟩
    rcases mem_flatMap.mp (leaves entry entryMember) with
      ⟨tree, inForest, leaf⟩
    have inside := sound.balanced.leaf_inside inForest leaf
    have fits := clients.fits entry entryMember
    have positions := fits.first
    have ends := fits.last
    refine ⟨tree.root, sound.roots.symm.subset (mem_map_of_mem inForest),
        inside.1.symm.trans fits.base, ?_, ?_⟩
    · exact Nat.le_trans inside.2.1 positions
    · exact Nat.le_trans ends inside.2.2

/-! ## Sweeping -/

theorem rootOf_plug {frames : List (Frame NodeId)} {tree : SplitTree NodeId} {fuel : Nat}
    (above : BuiltAbove (shape allocator.nodes) frames tree.root)
    (rooted : (allocator.nodes (plug frames tree).root).parent = none)
    (enough : frames.length ≤ fuel) :
    allocator.rootOf fuel tree.root = (plug frames tree).root := by
  induction frames generalizing tree fuel with
  | nil =>
    cases fuel with
    | zero => rfl
    | succ fuel =>
      have parent : (allocator.nodes tree.root).parent = none := rooted
      simp only [EagerBufferAllocator.rootOf, parent]
      rfl
  | cons frame rest ih =>
    cases fuel with
    | zero => cases enough
    | succ fuel =>
      rcases above with ⟨filled, outer⟩
      have parent : (allocator.nodes tree.root).parent = some frame.id := filled.fill_parent.1
      have filledRoot : (frame.fill tree).root = frame.id := fill_root frame tree
      simp only [EagerBufferAllocator.rootOf, parent]
      rw [← filledRoot] at outer
      have climbed := ih outer rooted (Nat.le_of_succ_le_succ enough)
      rw [filledRoot] at climbed
      exact climbed

theorem Balanced.rootOf (balanced : Balanced allocator.nodes allocator.nodeCount main others forest)
    {tree : SplitTree NodeId} (inForest : tree ∈ forest) {id : NodeId} (leaf : id ∈ tree.leaves) :
    allocator.rootOf allocator.nodeCount id = tree.root := by
  rcases exists_plug leaf with ⟨frames, rfl⟩
  rcases append_of_mem inForest with ⟨before, after, rfl⟩
  have above := (built_plug.mp (balanced.built _ inForest)).2
  exact rootOf_plug above (balanced.rooted _ inForest) balanced.depth

theorem SplitTree.exists_leaf (tree : SplitTree NodeId) : ∃ id, id ∈ tree.leaves := by
  induction tree with
  | leaf id => exact ⟨id, mem_singleton_self id⟩
  | split id first second firstIH _ =>
    rcases firstIH with ⟨leaf, member⟩
    exact ⟨leaf, mem_append_left _ member⟩

theorem EagerBufferAllocator.listed_perm (allocator : EagerBufferAllocator) : allocator.listed.Perm
      (allocator.mFreeList ++ (allocator.mUsedList.map Prod.snd ++ allocator.mGroups.flatten)) := by
  rw [listed, ← append_assoc]
  exact perm_append_comm.append_right _

theorem Balanced.mem_roots (balanced :
      Balanced allocator.nodes allocator.nodeCount allocator.mFreeList
        (allocator.mUsedList.map Prod.snd ++ allocator.mGroups.flatten) forest) (block : NodeId) :
    block ∈ allocator.listed.map (allocator.rootOf allocator.nodeCount) ↔
      block ∈ forest.map SplitTree.root := by
  have listed := allocator.listed_perm.trans balanced.listed
  rw [mem_map, mem_map]
  constructor
  · rintro ⟨id, member, rfl⟩
    rcases mem_flatMap.mp (listed.subset member) with
      ⟨tree, inForest, leaf⟩
    exact ⟨tree, inForest, (balanced.rootOf inForest leaf).symm⟩
  · rintro ⟨tree, inForest, rfl⟩
    rcases SplitTree.exists_leaf tree with ⟨id, leaf⟩
    refine ⟨id, ?_, balanced.rootOf inForest leaf⟩
    exact listed.symm.subset (mem_flatMap.mpr ⟨tree, inForest, leaf⟩)

/-- In a sound state every block is reached: there is nothing to destroy. -/
theorem EagerSound.sweep (sound : EagerSound allocator live forest) :
    allocator.sweep = allocator := by
  have reached : ∀ block ∈ allocator.blocks, block ∈
          allocator.listed.map (allocator.rootOf allocator.nodeCount) := by
    intro block member
    rw [sound.balanced.mem_roots]
    exact sound.roots.subset member
  have kept : (allocator.blocks.filter fun block =>
        block ∈ allocator.listed.map
          (allocator.rootOf allocator.nodeCount)) = allocator.blocks := by
    rw [filter_eq_self]
    intro block member
    simpa using reached block member
  have none : (allocator.blocks.filter fun block =>
        block ∉ allocator.listed.map (allocator.rootOf allocator.nodeCount)) = [] := by
    rw [filter_eq_nil_iff]
    intro block member
    simpa using reached block member
  simp only [EagerBufferAllocator.sweep]
  rw [kept, none, append_nil]

/-! ## Changes that keep the blocks -/

/-- The places of the first nodes are as they were. -/
def SamePlaces (nodes nodes' : NodeId → EagerNode) (nodeCount : Nat) : Prop :=
  ∀ id < nodeCount, (nodes' id).pointer = (nodes id).pointer ∧ (nodes' id).size = (nodes id).size

/-- The places of old nodes and the blocks are as they were. -/
structure Kept (earlier later : EagerBufferAllocator) : Prop where
  nodes : SamePlaces earlier.nodes later.nodes earlier.nodeCount
  grown : earlier.nodeCount ≤ later.nodeCount
  blocks : later.blocks = earlier.blocks
  released : later.released = earlier.released
  total : later.mTotalSize = earlier.mTotalSize

theorem Kept.trans {middle : EagerBufferAllocator}
    (first : Kept earlier middle) (second : Kept middle later) :
    Kept earlier later where
  nodes := by
    intro id old
    have atFirst := first.nodes id old
    have atSecond := second.nodes id (Nat.lt_of_lt_of_le old first.grown)
    exact ⟨atSecond.1.trans atFirst.1, atSecond.2.trans atFirst.2⟩
  grown := Nat.le_trans first.grown second.grown
  blocks := second.blocks.trans first.blocks
  released := second.released.trans first.released
  total := second.total.trans first.total

theorem EagerBufferAllocator.Recounted.kept
    (recounted : Recounted earlier later) : Kept earlier later where
  nodes := by
    intro id _
    rw [recounted.sameShape id]
    exact ⟨rfl, rfl⟩
  grown := by
    apply Nat.le_of_eq
    rw [recounted.frame]
  blocks := by
    rw [recounted.frame]
  released := by
    rw [recounted.frame]
  total := by
    rw [recounted.frame]

theorem SoundBlocks.kept (blocks : SoundBlocks earlier) (kept : Kept earlier later) :
    SoundBlocks later := by
  have same :
      ∀ block ∈ earlier.blocks, (later.nodes block).pointer = (earlier.nodes block).pointer ∧
          (later.nodes block).size = (earlier.nodes block).size := by
    intro block member
    exact kept.nodes block (blocks.created block (mem_append_right _ member))
  exact
    { apart := by
        rw [kept.blocks]
        refine blocks.apart.imp_of_mem ?_
        intro first second firstMember secondMember apart
        unfold NodesApart
        rw [(same first firstMember).1, (same first firstMember).2,
          (same second secondMember).1, (same second secondMember).2]
        exact apart
      nonNull := by
        rw [kept.blocks]
        intro block member
        rw [(same block member).1]
        exact blocks.nonNull block member
      total := by
        rw [kept.blocks, kept.total, blocks.total]
        congr 1
        refine map_congr_left ?_
        intro block member
        exact (same block member).2.symm
      once := by
        rw [kept.blocks, kept.released]
        exact blocks.once
      created := by
        rw [kept.blocks, kept.released]
        intro block member
        exact Nat.lt_of_lt_of_le (blocks.created block member) kept.grown }

theorem Clients.moved {nodes' : NodeId → EagerNode} {used : List (Pointer × NodeId)}
    (clients : Clients nodes used live entries) (places : SamePlaces nodes nodes' nodeCount)
    (old : ∀ entry ∈ entries, entry.node < nodeCount) :
    Clients nodes' used live entries where
  used := clients.used
  live := clients.live
  distinct := clients.distinct
  fits := by
    intro entry member
    have same := places entry.node (old entry member)
    have fits := clients.fits entry member
    constructor
    · exact fits.positive
    · rw [same.1]
      exact fits.base
    · rw [same.1]
      exact fits.first
    · rw [same.1, same.2]
      exact fits.last

theorem EagerSound.entry_old (sound : EagerSound allocator live forest)
    (clients : Clients allocator.nodes allocator.mUsedList live entries) :
    ∀ entry ∈ entries, entry.node < allocator.nodeCount := by
  intro entry member
  apply sound.balanced.created
  exact (Forest.leaves_sublist forest).subset ((sound.entry_leaf clients).2 entry member)

theorem Balanced.others_perm {others' : List NodeId}
    (balanced : Balanced nodes nodeCount main others forest) (perm : others'.Perm others) :
    Balanced nodes nodeCount main others' forest :=
  { balanced with
    listed := (perm.append_left main).trans balanced.listed }

section

variable {allocator : EagerBufferAllocator} (sound : EagerSound allocator live forest) {x : NodeId}

include sound

theorem EagerSound.leaf_notNull (leaf : x ∈ Forest.leaves forest) :
    (allocator.nodes x).pointer.1 ≠ 0 := by
  rcases mem_flatMap.mp leaf with ⟨tree, inForest, member⟩
  rw [(sound.balanced.leaf_inside inForest member).1]
  apply sound.blocks.nonNull
  exact sound.roots.symm.subset (mem_map_of_mem inForest)

/-- The key of a free leaf with a place for a chunk is not in use. -/
theorem EagerSound.key_fresh {pointer : Pointer} {size : Nat} (leaf : x ∈ Forest.leaves forest)
    (unused : x ∉ allocator.mUsedList.map Prod.snd)
    (fits : (⟨pointer, x, size⟩ : Entry).Fits allocator.nodes) :
    pointer ∉ allocator.mUsedList.map Prod.fst := by
  intro inUse
  rcases sound.clients with ⟨entries, clients⟩
  rw [clients.used, map_map] at inUse
  rcases mem_map.mp inUse with ⟨entry, member, samePointer⟩
  have different : x ≠ entry.node := by
    rintro rfl
    apply unused
    rw [clients.used, map_map]
    exact mem_map_of_mem member
  have apart := sound.leaves_apart leaf ((sound.entry_leaf clients).2 entry member) different
  have entryFits := clients.fits entry member
  have chunksApart := apart.shrink fits.base.symm ⟨fits.first, fits.last⟩
      entryFits.base.symm ⟨entryFits.first, entryFits.last⟩
  have same : entry.pointer = pointer := samePointer
  have firstPositive := fits.positive
  have secondPositive := entryFits.positive
  rw [same] at chunksApart
  rcases chunksApart with base | before | after
  · exact base rfl
  · simp only at before firstPositive
    omega
  · simp only at after firstPositive
    omega

end

end Mnn.Core.BufferAllocator
