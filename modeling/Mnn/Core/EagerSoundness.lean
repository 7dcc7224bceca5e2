import Mnn.Core.EagerFree

/-!
# Chunks of the eager allocator do not overlap

Every call keeps the invariant as long as a new block is cut into two parts
only where the cut fits.  A block that is cut while a group is open overlaps:
its root then counts one child in use, and the other child, which waits in the
list of the group, was never counted.
-/

variable {forest : Forest} {mFreeList : List NodeId} {align size : Nat}
  {allocator : EagerBufferAllocator} {session next : EagerSession}

namespace Mnn.Core.BufferAllocator

open Mnn.Foundation.Runs
open List

namespace EagerSession

/-- A block that is obtained by this call can be cut. -/
def CutsFit (session : EagerSession) : EagerCall → Prop
  | .alloc size separate align answer =>
    session.allocator.GoesOutside size separate align → answer.1 ≠ 0 →
      session.allocator.CutFits size
  | _ => True

theorem sound_start (align minAllocSize : Nat) : EagerSound (start align minAllocSize).allocator
      (start align minAllocSize).live [] where
  balanced :=
    { listed := List.Perm.refl _
      distinct := nodup_nil
      created := fun _ member => absurd member not_mem_nil
      built := fun _ member => absurd member not_mem_nil
      rooted := fun _ member => absurd member not_mem_nil
      counted := fun _ member => absurd member not_mem_nil }
  roots := List.Perm.refl _
  blocks :=
    { apart := List.Pairwise.nil
      nonNull := fun _ member => absurd member not_mem_nil
      total := rfl
      once := nodup_nil
      created := fun _ member => absurd member not_mem_nil }
  clients :=
    ⟨[],
      { used := rfl
        live := rfl
        distinct := nodup_nil
        fits := fun _ member => absurd member not_mem_nil }⟩
  group := by
    intro index isCurrent
    cases isCurrent

theorem sound_call {event : EagerCall} (sound : EagerSound session.allocator session.live forest)
    (cutsFit : session.CutsFit event) (taken : session.call event = some next) :
    ∃ forest', EagerSound next.allocator next.live forest' := by
  -- Only `release` leaves blocks behind which nothing refers to.
  have swept : ∀ {later : EagerBufferAllocator} {live : List (Pointer × Nat)} {forest' : Forest},
        EagerSound later live forest' → ∃ forest', EagerSound later.sweep live forest' := by
    intro later live forest' laterSound
    refine ⟨forest', ?_⟩
    rw [laterSound.sweep]
    exact laterSound
  cases event with
  | alloc size separate align answer =>
    simp only [call] at taken
    by_cases refused : size = 0 ∨ ¬session.allocator.ValidAnswer size answer
    · rw [if_pos refused] at taken
      cases taken
    rw [if_neg refused] at taken
    rw [not_or, not_not] at refused
    split at taken
    · cases taken
    · next pointer later got =>
        cases taken
        have positive : 0 < size := Nat.pos_of_ne_zero refused.1
        rcases sound.alloc positive refused.2 cutsFit got with
          ⟨isNull, rfl⟩ | ⟨notNull, forest', laterSound⟩
        · simp only [if_pos isNull]
          exact swept sound
        · simp only [if_neg notNull]
          exact swept laterSound
  | free pointer =>
    simp only [call] at taken
    by_cases held : pointer ∈ session.live.map Prod.fst
    · rw [if_pos held] at taken
      cases taken
      rcases sound.free held with ⟨forest', laterSound⟩
      exact swept laterSound
    · rw [if_neg held] at taken
      cases taken
  | beginGroup =>
    cases taken
    exact swept sound.beginGroup
  | endGroup =>
    cases taken
    exact swept sound.endGroup
  | barrierBegin =>
    cases taken
    exact ⟨forest, sound⟩
  | barrierEnd =>
    simp only [call] at taken
    by_cases noGroup : session.allocator.mCurrentFreeList = none
    · rw [if_pos noGroup] at taken
      cases taken
      rcases sound.barrierEnd noGroup with ⟨forest', laterSound⟩
      exact swept laterSound
    · rw [if_neg noGroup] at taken
      cases taken
  | release =>
    cases taken
    exact ⟨_, sound.release.1⟩

/-- The invariant holds in every state of a run whose cuts fit. -/
theorem sound_run {minAllocSize : Nat} {last : EagerSession}
    (reached : Reaches call CutsFit (start align minAllocSize) last) :
    ∃ forest, EagerSound last.allocator last.live forest := by
  have preserved :
      ∀ (session : EagerSession) event next,
        (∃ forest, EagerSound session.allocator session.live forest) →
          session.CutsFit event → session.call event = some next →
            ∃ forest, EagerSound next.allocator next.live forest := by
    rintro session event next ⟨forest, sound⟩ cutsFit taken
    exact sound_call sound cutsFit taken
  exact reached.invariant preserved ⟨[], sound_start align minAllocSize⟩

/-- A block is cut inside a group, and merged while its chunk is in use. -/
def cuttingCalls : List EagerCall :=
  [.barrierBegin, .beginGroup, .alloc 10 false 0 (1, 0), .endGroup,
    .barrierEnd, .alloc 100 false 0 (2, 0)]

end EagerSession

/-!
# The eager allocator conserves memory

Without a minimal block size nothing is cut that does not fit, so the forest
is balanced in every state of every run.  Read back as statements about the
allocator, this says that no memory is lost and that no block is handed back
early or twice.
-/

open Mnn.Foundation.SplitRanges

/-! ## The settings do not change -/

variable (list : FreeListPtr) {pointer answer : Pointer}

namespace EagerBufferAllocator

section

variable (allocator : EagerBufferAllocator)

@[simp]
theorem insertFree_minAllocSize (id : NodeId) :
    (allocator.insertFree list id).mMinAllocSize =
      allocator.mMinAllocSize := by
  cases list <;> rfl

@[simp]
theorem eraseFree_minAllocSize (id : NodeId) :
    (allocator.eraseFree list id).mMinAllocSize =
      allocator.mMinAllocSize := by
  cases list <;> rfl

@[simp]
theorem insertUsed_minAllocSize (pointer : Pointer) (id : NodeId) :
    (allocator.insertUsed pointer id).mMinAllocSize =
      allocator.mMinAllocSize := by
  unfold insertUsed
  split_ifs <;> rfl

@[simp]
theorem useParent_minAllocSize (x : NodeId) :
    (allocator.useParent x).mMinAllocSize = allocator.mMinAllocSize := by
  unfold useParent
  split <;> rfl

@[simp]
theorem splitFree_minAllocSize (x : NodeId) (pointer : Pointer) (sizeAlign : Nat) :
    (allocator.splitFree list x pointer sizeAlign).mMinAllocSize =
      allocator.mMinAllocSize := by
  simp [splitFree, newNode, setUseCount]

@[simp]
theorem splitBlock_minAllocSize (node : NodeId) (chunk : Pointer) (allocSize size : Nat) :
    (allocator.splitBlock node chunk allocSize size).mMinAllocSize =
      allocator.mMinAllocSize := by
  cases current : allocator.mCurrentFreeList with
  | none =>
    simp only [splitBlock, newNode, setUseCount]
    split <;> simp
  | some group =>
    simp only [splitBlock, newNode, setUseCount]
    split <;> simp

end

section

variable {allocator later : EagerBufferAllocator}

theorem getFromFreeList_minAllocSize {list : FreeListPtr} {permiteSplit : Bool}
    (got :
      allocator.getFromFreeList list size permiteSplit align =
        some (pointer, later)) :
    later.mMinAllocSize = allocator.mMinAllocSize := by
  unfold getFromFreeList at got
  by_cases noAlign : align = 0
  · rw [if_pos noAlign] at got
    cases got
  rw [if_neg noAlign] at got
  simp only at got
  split at got
  · cases got
    rfl
  · split_ifs at got
    all_goals
      cases got
      simp

theorem allocOutside_minAllocSize
    (got : allocator.allocOutside size answer = some (pointer, later)) :
    later.mMinAllocSize = allocator.mMinAllocSize := by
  unfold allocOutside at got
  simp only at got
  split_ifs at got
  all_goals
    cases got
    first
      | rfl
      | simp [obtainBlock, newNode]

theorem alloc_minAllocSize {separate : Bool}
    (got : allocator.alloc size separate align answer = some (pointer, later)) :
    later.mMinAllocSize = allocator.mMinAllocSize := by
  -- A search that found nothing is followed by the next way to get a chunk.
  have mainPart :
      ∀ {middle : EagerBufferAllocator} {unit : Nat},
        middle.mMinAllocSize = allocator.mMinAllocSize →
        middle.allocMain size unit answer = some (pointer, later) →
        later.mMinAllocSize = allocator.mMinAllocSize := by
    intro middle unit same gotMain
    unfold allocMain at gotMain
    split at gotMain
    · cases gotMain
    · next found next search =>
        have searched := getFromFreeList_minAllocSize search
        split_ifs at gotMain
        · cases gotMain
          exact searched.trans same
        · exact (allocOutside_minAllocSize gotMain).trans (searched.trans same)
  unfold alloc at got
  simp only at got
  by_cases isSeparate : separate = true
  · rw [if_pos isSeparate] at got
    exact allocOutside_minAllocSize got
  rw [if_neg isSeparate] at got
  split at got
  · exact mainPart rfl got
  · split at got
    · cases got
    · next found next search =>
        have searched := getFromFreeList_minAllocSize search
        by_cases notNull : found.1 ≠ 0
        · rw [if_pos notNull] at got
          cases got
          exact searched
        · rw [if_neg notNull] at got
          exact mainPart searched got

end

theorem mergeUp_minAllocSize (fuel : Nat) (allocator : EagerBufferAllocator) (list : FreeListPtr)
    (parent : NodeId) :
    (mergeUp fuel allocator list parent).mMinAllocSize =
      allocator.mMinAllocSize := by
  induction fuel generalizing allocator parent with
  | zero => rfl
  | succ fuel ih =>
    have setFree :
        ∀ (allocator : EagerBufferAllocator) (ids : List NodeId),
          (allocator.setFreeList ids list).mMinAllocSize =
            allocator.mMinAllocSize := by
      intro allocator ids
      cases list <;> rfl
    simp only [mergeUp]
    split
    · simp [setFree]
    · split_ifs
      · rw [ih]
        simp [setUseCount, setFree]
      · simp [setUseCount, setFree]

@[simp]
theorem returnMemory_minAllocSize
    (allocator : EagerBufferAllocator) (list : FreeListPtr) (node : NodeId) (permitMerge : Bool) :
    (allocator.returnMemory list node permitMerge).mMinAllocSize =
      allocator.mMinAllocSize := by
  unfold returnMemory
  simp only
  split
  · split_ifs
    · rw [mergeUp_minAllocSize]
      simp [setUseCount]
    · simp [setUseCount]
  · simp

theorem free_minAllocSize (allocator : EagerBufferAllocator) (pointer : Pointer) :
    (allocator.free pointer).2.mMinAllocSize = allocator.mMinAllocSize := by
  unfold free
  split
  · rfl
  · simp only
    split <;> simp [eraseUsed]

theorem barrierEnd_minAllocSize (allocator : EagerBufferAllocator) :
    allocator.barrierEnd.mMinAllocSize = allocator.mMinAllocSize := by
  show (allocator.mGroups.flatten.foldl
      (fun allocator node => allocator.returnMemory .main node true)
      allocator).mMinAllocSize = allocator.mMinAllocSize
  generalize allocator.mGroups.flatten = pending
  induction pending generalizing allocator with
  | nil => rfl
  | cons node rest ih =>
    rw [foldl_cons, ih, returnMemory_minAllocSize]

end EagerBufferAllocator

theorem EagerSession.call_minAllocSize {event : EagerCall}
    (taken : session.call event = some next) :
    next.allocator.mMinAllocSize = session.allocator.mMinAllocSize := by
  cases event with
  | alloc size separate align answer =>
    simp only [call] at taken
    split_ifs at taken
    split at taken
    · cases taken
    · next pointer later got =>
        cases taken
        show later.mMinAllocSize = session.allocator.mMinAllocSize
        exact EagerBufferAllocator.alloc_minAllocSize got
  | free pointer =>
    simp only [call] at taken
    split_ifs at taken
    cases taken
    exact session.allocator.free_minAllocSize pointer
  | barrierEnd =>
    simp only [call] at taken
    split_ifs at taken
    cases taken
    exact session.allocator.barrierEnd_minAllocSize
  | beginGroup =>
    cases taken
    rfl
  | endGroup =>
    cases taken
    rfl
  | barrierBegin =>
    cases taken
    rfl
  | release =>
    cases taken
    rfl

/-! ## Reading the forest -/

/-- Every split node counts its children which are not in the main free list. -/
def CountsChildren (nodes : NodeId → EagerNode) (mFreeList : List NodeId) : SplitTree NodeId → Prop
  | .leaf _ => True
  | .split id first second =>
    (nodes id).useCount = ([first.root, second.root].filter fun child =>
          child ∉ mFreeList).length ∧
      CountsChildren nodes mFreeList first ∧ CountsChildren nodes mFreeList second

/-- The leaves lie in the block of the root and fill it from end to end. -/
def TilesBlock (nodes : NodeId → EagerNode) (tree : SplitTree NodeId) : Prop :=
  (∀ id ∈ tree.leaves, (nodes id).pointer.1 = (nodes tree.root).pointer.1) ∧
    Tiles (fun id => (nodes id).pointer.2) (fun id => (nodes id).size)
      (nodes tree.root).pointer.2 tree.leaves
      ((nodes tree.root).pointer.2 + (nodes tree.root).size)

theorem busy_eq_count {tree : SplitTree NodeId} (distinct : tree.ids.Nodup)
    (idleLeaves : ∀ id ∈ tree.ids, id ∈ mFreeList → id ∈ tree.leaves) :
    busy (idleIn mFreeList) tree =
      if tree.root ∈ mFreeList then 0 else 1 := by
  cases tree with
  | leaf id =>
    rw [SplitTree.root_leaf]
    by_cases member : id ∈ mFreeList
    · rw [busy_leaf_of_mem member, if_pos member]
    · rw [busy_leaf_of_not_mem member, if_neg member]
  | split id first second =>
    have absent : id ∉ mFreeList := by
      intro member
      have leaf := idleLeaves id mem_cons_self member
      have below : id ∈ first.ids ++ second.ids := by
        rcases mem_append.mp leaf with early | late
        · exact mem_append_left _ (first.leaves_sublist.subset early)
        · exact mem_append_right _ (second.leaves_sublist.subset late)
      exact (nodup_cons.mp distinct).1 below
    rw [SplitTree.root_split, if_neg absent]
    rfl

theorem Counted.countsChildren {nodes : NodeId → EagerNode} {tree : SplitTree NodeId}
    (counted : Counted (idleIn mFreeList) (fun id => (nodes id).useCount) tree)
    (distinct : tree.ids.Nodup) (idleLeaves : ∀ id ∈ tree.ids, id ∈ mFreeList → id ∈ tree.leaves) :
    CountsChildren nodes mFreeList tree := by
  induction tree with
  | leaf id => trivial
  | split id first second firstIH secondIH =>
    rcases counted with ⟨⟨counts, -⟩, inFirst, inSecond⟩
    rcases nodup_cons.mp distinct with ⟨notBelow, below⟩
    rcases nodup_append.mp below with
      ⟨firstDistinct, secondDistinct, apart⟩
    have firstIdle : ∀ other ∈ first.ids, other ∈ mFreeList → other ∈ first.leaves := by
      intro other member isFree
      have inTree : other ∈ (SplitTree.split id first second).ids :=
        mem_cons_of_mem _ (mem_append_left _ member)
      rcases mem_append.mp (idleLeaves other inTree isFree) with
        early | late
      · exact early
      · have elsewhere := second.leaves_sublist.subset late
        exact absurd rfl (apart other member other elsewhere)
    have secondIdle : ∀ other ∈ second.ids, other ∈ mFreeList → other ∈ second.leaves := by
      intro other member isFree
      have inTree : other ∈ (SplitTree.split id first second).ids :=
        mem_cons_of_mem _ (mem_append_right _ member)
      rcases mem_append.mp (idleLeaves other inTree isFree) with
        early | late
      · have elsewhere := first.leaves_sublist.subset early
        exact absurd rfl (apart other elsewhere other member)
      · exact late
    refine ⟨?_, firstIH inFirst firstDistinct firstIdle,
        secondIH inSecond secondDistinct secondIdle⟩
    have busySum : (nodes id).useCount = _ := counts
    rw [busySum, busy_eq_count firstDistinct firstIdle, busy_eq_count secondDistinct secondIdle]
    by_cases firstFree : first.root ∈ mFreeList <;>
      by_cases secondFree : second.root ∈ mFreeList <;>
        simp [firstFree, secondFree]

theorem Counted.eq_leaf {count : NodeId → Nat} {tree : SplitTree NodeId}
    (counted : Counted (idleIn mFreeList) count tree) (idle : ∀ id ∈ tree.leaves, id ∈ mFreeList) :
    ∃ id, tree = .leaf id := by
  induction tree with
  | leaf id => exact ⟨id, rfl⟩
  | split id first second firstIH secondIH =>
    rcases counted with ⟨⟨counts, positive⟩, inFirst, inSecond⟩
    have firstIdle : ∀ other ∈ first.leaves, other ∈ mFreeList :=
      fun other member => idle other (mem_append_left _ member)
    have secondIdle : ∀ other ∈ second.leaves, other ∈ mFreeList :=
      fun other member => idle other (mem_append_right _ member)
    rcases firstIH inFirst firstIdle with ⟨left, rfl⟩
    rcases secondIH inSecond secondIdle with ⟨right, rfl⟩
    have leftFree := firstIdle left (mem_singleton_self left)
    have rightFree := secondIdle right (mem_singleton_self right)
    rw [counts, busy_leaf_of_mem leftFree, busy_leaf_of_mem rightFree] at positive
    exact absurd positive (Nat.lt_irrefl 0)

theorem Forest.eq_of_mem_ids (distinct : (Forest.ids forest).Nodup) {tree other : SplitTree NodeId}
    (inForest : tree ∈ forest) (otherInForest : other ∈ forest)
    {id : NodeId} (member : id ∈ tree.ids) (otherMember : id ∈ other.ids) :
    tree = other := by
  induction forest with
  | nil => cases inForest
  | cons head rest ih =>
    rw [Forest.ids_cons, nodup_append] at distinct
    rcases distinct with ⟨-, restDistinct, apart⟩
    rcases mem_cons.mp inForest with rfl | inRest <;>
      rcases mem_cons.mp otherInForest with rfl | otherInRest
    · rfl
    · have below := mem_flatMap.mpr ⟨other, otherInRest, otherMember⟩
      exact absurd rfl (apart id member id below)
    · have below := mem_flatMap.mpr ⟨tree, inRest, member⟩
      exact absurd rfl (apart id otherMember id below)
    · exact ih restDistinct inRest otherInRest

/-! ## What is conserved -/

/-- Nothing is lost, and `release(false)` hands back what is free. -/
structure Conserved
    (allocator : EagerBufferAllocator) (live : List (Pointer × Nat))
    (forest : Forest) : Prop where
  roots : allocator.blocks.Perm (forest.map SplitTree.root)
  built : ∀ tree ∈ forest, Built (shape allocator.nodes) tree
  counts : ∀ tree ∈ forest, CountsChildren allocator.nodes allocator.mFreeList tree
  leaves : allocator.listed.Perm (Forest.leaves forest)
  distinct : (Forest.ids forest).Nodup
  tiles : ∀ tree ∈ forest, TilesBlock allocator.nodes tree
  total :
    allocator.mTotalSize = (allocator.blocks.map fun block => (allocator.nodes block).size).sum
  once : (allocator.released ++ allocator.blocks).Nodup
  emptied :
    live = [] → allocator.mGroups = [] → allocator.mFreeList.Perm allocator.blocks ∧
        allocator.release.sweep.blocks = [] ∧
        allocator.release.sweep.released.Perm (allocator.released ++ allocator.blocks)
  spared :
    ∀ block ∈ allocator.blocks, block ∉ allocator.release.sweep.blocks → ∀ chunk ∈ live,
        RangesApart chunk.1 chunk.2 (allocator.nodes block).pointer (allocator.nodes block).size

theorem EagerSound.all_free (sound : EagerSound allocator [] forest)
    (noGroups : allocator.mGroups = []) :
    allocator.mFreeList.Perm allocator.blocks ∧
      forest.filter (idleRoot allocator.mFreeList) = forest := by
  have unused : allocator.mUsedList = [] := by
    rcases sound.clients with ⟨entries, clients⟩
    have noEntries : entries = [] := map_eq_nil_iff.mp clients.live.symm
    rw [clients.used, noEntries]
    rfl
  have listed : allocator.mFreeList.Perm (Forest.leaves forest) := by
    have all := sound.balanced.listed
    rwa [unused, noGroups, map_nil, flatten_nil, append_nil, append_nil] at all
  have whole : ∀ tree ∈ forest, ∃ id, tree = .leaf id := by
    intro tree inForest
    apply Counted.eq_leaf (sound.balanced.counted tree inForest)
    intro id leaf
    exact listed.symm.subset (mem_flatMap.mpr ⟨tree, inForest, leaf⟩)
  have leavesEq : Forest.leaves forest = forest.map SplitTree.root := by
    clear sound listed
    induction forest with
    | nil => rfl
    | cons tree rest ih =>
      rcases whole tree mem_cons_self with ⟨id, rfl⟩
      have restWhole : ∀ tree ∈ rest, ∃ id, tree = .leaf id :=
        fun tree member => whole tree (mem_cons_of_mem _ member)
      rw [Forest.leaves_cons, ih restWhole]
      rfl
  constructor
  · rw [leavesEq] at listed
    exact listed.trans sound.roots.symm
  · rw [filter_eq_self]
    intro tree inForest
    rcases whole tree inForest with ⟨id, rfl⟩
    have isFree : id ∈ allocator.mFreeList := by
      refine listed.symm.subset (mem_flatMap.mpr ⟨_, inForest, ?_⟩)
      exact mem_singleton_self id
    simpa [idleRoot, idleIn] using isFree

theorem EagerSound.conserved {live : List (Pointer × Nat)}
    (sound : EagerSound allocator live forest) :
    Conserved allocator live forest where
  roots := sound.roots
  built := sound.balanced.built
  counts := by
    intro tree inForest
    have inTree : tree.ids.Sublist (Forest.ids forest) :=
      sublist_flatten_of_mem (mem_map_of_mem inForest)
    apply Counted.countsChildren (sound.balanced.counted tree inForest)
        (sound.balanced.distinct.sublist inTree)
    intro id member isFree
    have leaf := sound.balanced.listed.subset (mem_append_left _ isFree)
    rcases mem_flatMap.mp leaf with ⟨other, otherInForest, inLeaves⟩
    have same : tree = other := Forest.eq_of_mem_ids sound.balanced.distinct inForest otherInForest
        member (other.leaves_sublist.subset inLeaves)
    rw [same]
    exact inLeaves
  leaves := allocator.listed_perm.trans sound.balanced.listed
  distinct := sound.balanced.distinct
  tiles := by
    intro tree inForest
    have built := sound.balanced.built tree inForest
    exact ⟨built.base, built.tiles⟩
  total := sound.blocks.total
  once := sound.blocks.once
  emptied := by
    rintro rfl noGroups
    rcases sound.all_free noGroups with ⟨allFree, allIdle⟩
    rcases sound.release with ⟨remaining, dropped, releasedEq, droppedPerm⟩
    rw [allIdle] at droppedPerm
    have noneLeft : (forest.filter fun tree =>
          !idleRoot allocator.mFreeList tree) = [] := by
      rw [filter_eq_nil_iff]
      intro tree inForest
      rw [filter_eq_self] at allIdle
      simpa using allIdle tree inForest
    refine ⟨allFree, ?_, ?_⟩
    · have roots := remaining.roots
      rw [noneLeft] at roots
      exact roots.eq_nil
    · rw [releasedEq]
      exact (droppedPerm.trans sound.roots.symm).append_left _
  spared := by
    intro block isBlock gone chunk isLive
    have separated : EagerSession.Separated ⟨allocator.release.sweep, live⟩ :=
      sound.release.1.separated
    rcases separated.inside chunk isLive with
      ⟨other, otherStays, base, first, last⟩
    have otherIsBlock : other ∈ allocator.blocks := mem_of_mem_filter otherStays
    have different : other ≠ block := by
      rintro rfl
      exact gone otherStays
    have apart := sound.blocks.apart.forall otherIsBlock isBlock different
    exact apart.shrink base.symm ⟨first, last⟩ rfl ⟨Nat.le_refl _, Nat.le_refl _⟩

namespace EagerSession

/-- Nested splits, a chunk freed inside a group, and the merges afterwards. -/
def mergingCalls : List EagerCall :=
  [.alloc 100 false 0 (1, 0), .free (1, 0), .alloc 10 false 0 (2, 0),
    .alloc 20 false 0 (2, 0), .barrierBegin, .beginGroup, .free (1, 12),
    .endGroup, .barrierEnd, .free (1, 0)]

end EagerSession

end Mnn.Core.BufferAllocator
