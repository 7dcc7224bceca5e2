import Mnn.Core.EagerAlloc

/-!
# Giving memory back to the eager allocator

`free` puts a used leaf on a free list, `barrierEnd` merges what the groups
have freed, and `release(false)` hands back the blocks which are whole and
free.
-/

variable {pointer : Pointer} {others main : List NodeId} {nodes : NodeId → EagerNode}

namespace Mnn.Core.BufferAllocator

open Mnn.Foundation.SplitRanges
open List
open EagerBufferAllocator
open SplitTree

variable {allocator : EagerBufferAllocator} {live : List (Pointer × Nat)} {forest : Forest}

/-! ## Freeing -/

/-- Taking the one entry with a key out of a list with distinct keys. -/
theorem perm_filter_key {Item Key : Type} [DecidableEq Key] {items : List Item} {key : Item → Key}
    (distinct : (items.map key).Nodup) {item : Item} (member : item ∈ items) :
    items.Perm (item :: items.filter fun other => key other ≠ key item) := by
  classical
  refine (perm_cons_erase member).trans (.cons _ (.of_eq ?_))
  rw [distinct.of_map.erase_eq_filter]
  refine filter_congr fun other isOther => ?_
  have sameKey : key other = key item ↔ other = item :=
    ⟨inj_on_of_nodup_map distinct isOther member, congrArg key⟩
  rw [Bool.eq_iff_iff]
  simp [sameKey]

theorem lookup_of_mem {used : List (Pointer × NodeId)} (distinct : (used.map Prod.fst).Nodup)
    {id : NodeId} (member : (pointer, id) ∈ used) :
    used.lookup pointer = some id := by
  induction used with
  | nil => cases member
  | cons head rest ih =>
    rcases head with ⟨key, value⟩
    rw [map_cons, nodup_cons] at distinct
    rcases mem_cons.mp member with isHead | inRest
    · cases isHead
      simp [List.lookup]
    · have different : pointer ≠ key := by
        intro same
        exact distinct.1 (mem_map.mpr ⟨_, inRest, same⟩)
      have missed : (pointer == key) = false := by
        simpa using different
      rw [lookup_cons, missed]
      exact ih distinct.2 inRest

theorem EagerSound.takeBack (sound : EagerSound allocator live forest)
    (held : pointer ∈ live.map Prod.fst) :
    ∃ node, allocator.findUsed pointer = some node ∧ (allocator.mUsedList.map Prod.snd).Perm
          (node :: (allocator.eraseUsed pointer).mUsedList.map Prod.snd) ∧
        ∃ entries, Clients allocator.nodes (allocator.eraseUsed pointer).mUsedList
            (live.filter fun chunk => chunk.1 ≠ pointer) entries := by
  rcases sound.clients with ⟨entries, clients⟩
  rw [clients.live, map_map] at held
  rcases mem_map.mp held with ⟨entry, member, rfl⟩
  have keys : allocator.mUsedList.map Prod.fst = entries.map Entry.pointer := by
    rw [clients.used, map_map]
    rfl
  have usedMember : (entry.pointer, entry.node) ∈ allocator.mUsedList := by
    rw [clients.used]
    exact mem_map.mpr ⟨entry, member, rfl⟩
  have usedDistinct : (allocator.mUsedList.map Prod.fst).Nodup := by
    rw [keys]
    exact clients.distinct
  refine ⟨entry.node, lookup_of_mem usedDistinct usedMember, ?_, ?_⟩
  · exact (perm_filter_key usedDistinct usedMember).map Prod.snd
  · refine ⟨entries.filter fun other => other.pointer ≠ entry.pointer, ?_, ?_, ?_, ?_⟩
    · show List.filter _ allocator.mUsedList = _
      rw [clients.used, filter_map]
      rfl
    · rw [clients.live, filter_map]
      rfl
    · exact clients.distinct.sublist ((filter_sublist).map Entry.pointer)
    · intro other inside
      exact clients.fits other (mem_of_mem_filter inside)

theorem EagerSound.relist {earlier later : EagerBufferAllocator}
    {live' : List (Pointer × Nat)} {forest' : Forest} (sound : EagerSound earlier live forest)
    (kept : Kept earlier later)
    (balanced : Balanced later.nodes later.nodeCount later.mFreeList
        (later.mUsedList.map Prod.snd ++ later.mGroups.flatten) forest')
    (roots : forest'.map root = forest.map root)
    (clients : ∃ entries, Clients later.nodes later.mUsedList live' entries)
    (group : ∀ index, later.mCurrentFreeList = some index → index < later.mGroups.length) :
    EagerSound later live' forest' where
  balanced := balanced
  roots := by
    rw [kept.blocks, roots]
    exact sound.roots
  blocks := sound.blocks.kept kept
  clients := clients
  group := group

theorem EagerSound.free (sound : EagerSound allocator live forest)
    (held : pointer ∈ live.map Prod.fst) :
    ∃ forest', EagerSound (allocator.free pointer).2
        (live.filter fun chunk => chunk.1 ≠ pointer) forest' := by
  rcases sound.takeBack held with ⟨node, found, usedPerm, entries, clients⟩
  have sameEntries :
      ∀ {nodes : NodeId → EagerNode}, (∀ id, nodes id =
          { allocator.nodes id with useCount := (nodes id).useCount }) →
          Clients nodes (allocator.eraseUsed pointer).mUsedList
            (live.filter fun chunk => chunk.1 ≠ pointer) entries := by
    intro nodes same
    refine ⟨clients.used, clients.live, clients.distinct, ?_⟩
    intro entry member
    have fits := clients.fits entry member
    refine ⟨fits.positive, ?_, ?_, ?_⟩
    · rw [same]
      exact fits.base
    · rw [same]
      exact fits.first
    · rw [same]
      exact fits.last
  have balanced : Balanced allocator.nodes allocator.nodeCount allocator.mFreeList (node ::
          ((allocator.eraseUsed pointer).mUsedList.map Prod.snd ++
            allocator.mGroups.flatten)) forest :=
    sound.balanced.others_perm (usedPerm.append_right _).symm
  cases current : allocator.mCurrentFreeList with
  | none =>
    have freed :
        (allocator.free pointer).2 =
          (allocator.eraseUsed pointer).returnMemory .main node true := by
      simp only [EagerBufferAllocator.free, found]
      simp only [eraseUsed, current]
    rw [freed]
    have erasedBalanced : Balanced (allocator.eraseUsed pointer).nodes
          (allocator.eraseUsed pointer).nodeCount
          (allocator.eraseUsed pointer).mFreeList
          (node ::
            ((allocator.eraseUsed pointer).mUsedList.map Prod.snd ++
              allocator.mGroups.flatten)) forest :=
      balanced
    rcases erasedBalanced.returnMemory with
      ⟨recounted, forest', rootsEq, settled⟩
    refine ⟨forest', ?_⟩
    have erased : Kept allocator (allocator.eraseUsed pointer) :=
      { nodes := fun _ _ => ⟨rfl, rfl⟩
        grown := Nat.le_refl _
        blocks := rfl
        released := rfl
        total := rfl }
    have frame := recounted.frame
    have sameShape := recounted.sameShape
    have kept := erased.trans recounted.kept
    generalize (allocator.eraseUsed pointer).returnMemory .main node true = later
        at settled frame sameShape kept ⊢
    have usedEq : later.mUsedList = (allocator.eraseUsed pointer).mUsedList := by
      rw [frame]
    have groupsEq : later.mGroups = allocator.mGroups := by
      rw [frame]
      rfl
    have countEq : later.nodeCount = allocator.nodeCount := by
      rw [frame]
      rfl
    have currentEq : later.mCurrentFreeList = none := by
      rw [frame]
      exact current
    refine sound.relist kept ?_ rootsEq ⟨entries, ?_⟩ ?_
    · rw [usedEq, groupsEq, countEq]
      exact settled
    · rw [usedEq]
      exact sameEntries sameShape
    · intro index isSome
      rw [currentEq] at isSome
      cases isSome
  | some index =>
    have freed :
        (allocator.free pointer).2 = (allocator.eraseUsed pointer).insertFree (.group index)
            node := by
      simp only [EagerBufferAllocator.free, found]
      simp only [eraseUsed, current, returnMemory]
      split
      · next impossible => cases impossible
      · rfl
    rw [freed]
    have bound := sound.group index current
    rcases flatten_set_perm bound with ⟨rest, whole, changed⟩
    refine ⟨forest, sound.relist ?_ ?_ rfl ⟨entries, ?_⟩ ?_⟩
    · exact
        { nodes := fun _ _ => ⟨rfl, rfl⟩
          grown := Nat.le_refl _
          blocks := rfl
          released := rfl
          total := rfl }
    · refine balanced.others_perm ?_
      refine List.Perm.trans (List.Perm.append_left _ ?_) perm_middle
      refine (changed _).trans ?_
      refine (((allocator.eraseUsed pointer).insertBySize_perm node _).append_right rest).trans ?_
      exact whole.symm.cons node
    · exact sameEntries fun _ => rfl
    · intro other isCurrent
      have before := sound.group other isCurrent
      simpa [insertFree, setFreeList,
        eraseUsed] using before

theorem Balanced.returnAll {pending : List NodeId}
    (balanced : Balanced allocator.nodes allocator.nodeCount allocator.mFreeList
        (pending ++ others) forest) :
    Recounted allocator (pending.foldl
          (fun allocator node => allocator.returnMemory .main node true) allocator) ∧
      ∃ forest' : Forest, forest'.map root = forest.map root ∧ Balanced
          (pending.foldl (fun allocator node => allocator.returnMemory .main node true)
            allocator).nodes
          allocator.nodeCount
          (pending.foldl (fun allocator node => allocator.returnMemory .main node true)
            allocator).mFreeList
          others forest' := by
  induction pending generalizing allocator forest with
  | nil => exact ⟨.refl allocator, forest, rfl, balanced⟩
  | cons node rest ih =>
    rcases balanced.returnMemory with
      ⟨recounted, middle, middleRoots, middleBalanced⟩
    have countEq :
        (allocator.returnMemory .main node true).nodeCount =
          allocator.nodeCount := by
      rw [recounted.frame]
    rw [← countEq] at middleBalanced
    rcases ih middleBalanced with
      ⟨laterRecounted, forest', roots, laterBalanced⟩
    rw [countEq] at laterBalanced
    exact ⟨recounted.trans laterRecounted, forest', roots.trans middleRoots, laterBalanced⟩

theorem EagerSound.barrierEnd (sound : EagerSound allocator live forest)
    (noGroup : allocator.mCurrentFreeList = none) :
    ∃ forest', EagerSound allocator.barrierEnd live forest' := by
  have balanced : Balanced allocator.nodes allocator.nodeCount allocator.mFreeList
        (allocator.mGroups.flatten ++ allocator.mUsedList.map Prod.snd)
        forest :=
    sound.balanced.others_perm perm_append_comm
  rcases balanced.returnAll with ⟨recounted, forest', roots, returned⟩
  refine ⟨forest', ?_⟩
  have kept := recounted.kept
  have frame := recounted.frame
  unfold EagerBufferAllocator.barrierEnd
  generalize allocator.mGroups.flatten.foldl
      (fun allocator node => allocator.returnMemory .main node true)
      allocator = later at kept frame returned ⊢
  have usedEq : later.mUsedList = allocator.mUsedList := by
    rw [frame]
  have countEq : later.nodeCount = allocator.nodeCount := by
    rw [frame]
  have currentEq : later.mCurrentFreeList = none := by
    rw [frame]
    exact noGroup
  rcases sound.clients with ⟨entries, clients⟩
  have moved := clients.moved kept.nodes (sound.entry_old clients)
  refine sound.relist ?_ ?_ roots ⟨entries, ?_⟩ ?_
  · exact
      { nodes := kept.nodes
        grown := kept.grown
        blocks := kept.blocks
        released := kept.released
        total := kept.total }
  · show Balanced later.nodes later.nodeCount later.mFreeList
      (later.mUsedList.map Prod.snd ++ [].flatten) forest'
    rw [usedEq, countEq, flatten_nil, append_nil]
    exact returned
  · show Clients later.nodes later.mUsedList live entries
    rw [usedEq]
    exact moved
  · intro index isSome
    change later.mCurrentFreeList = some index at isSome
    rw [currentEq] at isSome
    cases isSome

theorem EagerSound.beginGroup (sound : EagerSound allocator live forest) :
    EagerSound allocator.beginGroup live forest := by
  refine sound.relist ?_ ?_ rfl sound.clients ?_
  · exact
      { nodes := fun _ _ => ⟨rfl, rfl⟩
        grown := Nat.le_refl _
        blocks := rfl
        released := rfl
        total := rfl }
  · have sameGroups : (allocator.mGroups ++ [[]]).flatten = allocator.mGroups.flatten := by
      simp
    show Balanced _ _ _ (allocator.mUsedList.map Prod.snd ++
        (allocator.mGroups ++ [[]]).flatten) forest
    rw [sameGroups]
    exact sound.balanced
  · intro index isCurrent
    have isLast : allocator.mGroups.length = index := Option.some.inj isCurrent
    show index < (allocator.mGroups ++ [[]]).length
    rw [← isLast, length_append]
    exact Nat.lt_succ_self _

theorem EagerSound.endGroup (sound : EagerSound allocator live forest) :
    EagerSound allocator.endGroup live forest := by
  refine sound.relist ?_ sound.balanced rfl sound.clients ?_
  · exact
      { nodes := fun _ _ => ⟨rfl, rfl⟩
        grown := Nat.le_refl _
        blocks := rfl
        released := rfl
        total := rfl }
  · intro index isCurrent
    cases isCurrent

/-! ## Handing blocks back -/

/-- A block which is one free node. -/
def idleRoot (main : List NodeId) : SplitTree NodeId → Bool
  | .leaf id => idleIn main id
  | .split _ _ _ => false

theorem foldl_subSize {sizes : List NodeId} {size : NodeId → Nat} {total : Nat}
    (bounded : (sizes.map size).sum ≤ total) :
    sizes.foldl (fun total id => subSize total (size id)) total = total - (sizes.map size).sum := by
  induction sizes generalizing total with
  | nil => rfl
  | cons id rest ih =>
    rw [map_cons, sum_cons] at bounded
    rw [foldl_cons, subSize, if_pos (by omega), ih (by omega), map_cons, sum_cons]
    omega

theorem Balanced.freeRoots {nodeCount : Nat}
    (balanced : Balanced nodes nodeCount main others forest) :
    (main.filter fun id => (nodes id).parent = none).Perm
      ((forest.filter (idleRoot main)).map root) := by
  have mainDistinct := (nodup_append.mp balanced.listed_nodup).1
  have rootsDistinct : (forest.map root).Nodup := by
    have distinct := balanced.distinct
    clear balanced
    induction forest with
    | nil => exact nodup_nil
    | cons tree rest ih =>
      rw [Forest.ids_cons, nodup_append] at distinct
      refine nodup_cons.mpr ⟨?_, ih distinct.2.1⟩
      intro member
      rcases mem_map.mp member with ⟨other, inRest, sameRoot⟩
      refine distinct.2.2 _ tree.root_mem_ids _ ?_ rfl
      rw [← sameRoot]
      exact mem_flatMap.mpr ⟨other, inRest, other.root_mem_ids⟩
  refine (perm_ext_iff_of_nodup (mainDistinct.filter _)
      (rootsDistinct.sublist (filter_sublist.map _))).mpr ?_
  intro id
  rw [mem_filter, mem_map]
  constructor
  · rintro ⟨inMain, parentless⟩
    have isRoot : (nodes id).parent = none := by simpa using parentless
    have leaf := balanced.listed.subset (mem_append_left others inMain)
    rcases mem_flatMap.mp leaf with ⟨tree, inForest, inTree⟩
    rcases (balanced.built tree inForest).parent_mem inTree with
      whole | ⟨parent, -, parentEq⟩
    · refine ⟨tree, mem_filter.mpr ⟨inForest, ?_⟩, ?_⟩
      · rw [whole]
        simpa [idleRoot, idleIn] using inMain
      · rw [whole]
        rfl
    · have impossible : none = some parent := isRoot.symm.trans parentEq
      cases impossible
  · rintro ⟨tree, member, rfl⟩
    rcases mem_filter.mp member with ⟨inForest, isIdle⟩
    refine ⟨?_, by simpa using balanced.rooted tree inForest⟩
    cases tree with
    | leaf id => simpa [idleRoot, idleIn] using isIdle
    | split id first second => cases isIdle

theorem Forest.ids_filter_sublist (keep : SplitTree NodeId → Bool) (forest : Forest) :
    (Forest.ids (forest.filter keep)).Sublist (Forest.ids forest) := by
  induction forest with
  | nil => exact List.Sublist.refl _
  | cons tree rest ih =>
    rw [filter_cons]
    split_ifs
    · exact (List.Sublist.refl _).append ih
    · exact ih.trans (sublist_append_right _ _)

theorem Balanced.release {nodeCount : Nat}
    (balanced : Balanced nodes nodeCount main others forest) :
    Balanced nodes nodeCount (main.filter fun id => ¬(nodes id).parent = none) others
      (forest.filter fun tree => !idleRoot main tree) := by
  have inForest : ∀ tree ∈ forest.filter (fun tree => !idleRoot main tree), tree ∈ forest :=
    fun tree member => mem_of_mem_filter member
  have idsSublist : (Forest.ids (forest.filter fun tree => !idleRoot main tree)).Sublist
        (Forest.ids forest) :=
    Forest.ids_filter_sublist _ forest
  have splitForest : (Forest.leaves forest).Perm ((forest.filter (idleRoot main)).map root ++
          Forest.leaves (forest.filter fun tree => !idleRoot main tree)) := by
    have parts :
        (forest.filter (idleRoot main) ++
          forest.filter fun tree => !idleRoot main tree).Perm forest :=
      filter_append_perm (idleRoot main) forest
    refine (parts.flatMap_right leaves).symm.trans ?_
    rw [flatMap_append]
    refine List.Perm.append_right _ ?_
    have single :
        ∀ trees : List (SplitTree NodeId), (∀ tree ∈ trees, idleRoot main tree = true) →
            trees.flatMap leaves = trees.map root := by
      intro trees idle
      induction trees with
      | nil => rfl
      | cons tree rest ih =>
        rw [flatMap_cons, map_cons, ih fun other member =>
            idle other (mem_cons_of_mem _ member)]
        cases tree with
        | leaf id => rfl
        | split id first second =>
          cases idle _ mem_cons_self
    rw [single _ fun tree member => (mem_filter.mp member).2]
  have splitMain :
      ((main.filter fun id => (nodes id).parent = none) ++
        main.filter fun id => ¬(nodes id).parent = none).Perm main := by
    have parts := filter_append_perm (fun id => decide ((nodes id).parent = none)) main
    simpa using parts
  have remaining :
      ∀ tree ∈ forest.filter (fun tree => !idleRoot main tree), ∀ id ∈ tree.leaves,
          idleIn (main.filter fun id => ¬(nodes id).parent = none) id = idleIn main id := by
    intro tree member id leaf
    rcases mem_filter.mp member with ⟨old, notIdle⟩
    apply idleIn_congr
    rw [mem_filter]
    constructor
    · exact And.left
    · intro inMain
      refine ⟨inMain, ?_⟩
      rcases (balanced.built tree old).parent_mem leaf with
        whole | ⟨parent, -, parentEq⟩
      · rw [whole] at notIdle
        simp [idleRoot, idleIn, inMain] at notIdle
      · have notNone : (nodes id).parent = some parent := parentEq
        simp [notNone]
  exact
    { listed := by
        have whole := balanced.listed.trans splitForest
        have front := (splitMain.append_right others).trans whole
        rw [append_assoc] at front
        exact (perm_append_left_iff _).mp ((balanced.freeRoots.append_right _).symm.trans front)
      distinct := balanced.distinct.sublist idsSublist
      created := by
        intro id member
        exact balanced.created id (idsSublist.subset member)
      built := by
        intro tree member
        exact balanced.built tree (inForest tree member)
      rooted := by
        intro tree member
        exact balanced.rooted tree (inForest tree member)
      counted := by
        intro tree member
        apply (balanced.counted tree (inForest tree member)).congr
        · intro id _
          rfl
        · exact remaining tree member }

/-- Blocks are parted by their trees: kept when reached, dropped when idle. -/
theorem part_blocks {blocks reached : List NodeId} (idle : SplitTree NodeId → Bool)
    (distinct : (forest.map root).Nodup) (roots : blocks.Perm (forest.map root))
    (kept : ∀ block ∈ blocks, (block ∈ reached ↔ block ∈
            (forest.filter fun tree => !idle tree).map root)) :
    (blocks.filter fun block => block ∈ reached).Perm
        ((forest.filter fun tree => !idle tree).map root) ∧
      (blocks.filter fun block => block ∉ reached).Perm ((forest.filter idle).map root) := by
  have blocksDistinct : blocks.Nodup := roots.nodup_iff.mpr distinct
  constructor
  · refine (perm_ext_iff_of_nodup (blocksDistinct.filter _)
        (distinct.sublist (filter_sublist.map _))).mpr ?_
    intro block
    rw [mem_filter, decide_eq_true_eq]
    constructor
    · rintro ⟨member, isReached⟩
      exact (kept block member).mp isReached
    · intro member
      have inBlocks : block ∈ blocks :=
        roots.symm.subset ((filter_sublist.map _).subset member)
      exact ⟨inBlocks, (kept block inBlocks).mpr member⟩
  · refine (perm_ext_iff_of_nodup (blocksDistinct.filter _)
        (distinct.sublist (filter_sublist.map _))).mpr ?_
    intro block
    rw [mem_filter, decide_eq_true_eq]
    constructor
    · rintro ⟨member, unreached⟩
      rw [kept block member] at unreached
      rcases mem_map.mp (roots.subset member) with
        ⟨tree, inForest, rfl⟩
      apply mem_map_of_mem
      rw [mem_filter]
      constructor
      · exact inForest
      · by_contra busyTree
        apply unreached
        refine mem_map_of_mem (mem_filter.mpr ⟨inForest, ?_⟩)
        simpa using busyTree
    · intro member
      rcases mem_map.mp member with ⟨tree, inIdle, rfl⟩
      rcases mem_filter.mp inIdle with ⟨inForest, isIdle⟩
      have inBlocks : tree.root ∈ blocks := roots.symm.subset (mem_map_of_mem inForest)
      constructor
      · exact inBlocks
      · rw [kept _ inBlocks]
        intro stays
        rcases mem_map.mp stays with ⟨other, otherMember, sameRoot⟩
        rcases mem_filter.mp otherMember with ⟨otherIn, notIdle⟩
        have same : other = tree := inj_on_of_nodup_map distinct otherIn inForest sameRoot
        rw [same, isIdle] at notIdle
        cases notIdle

theorem filter_mem_partition (blocks reached : List NodeId) :
    ((blocks.filter fun block => block ∈ reached) ++
      blocks.filter fun block => block ∉ reached).Perm blocks := by
  have parts := filter_append_perm (fun block => decide (block ∈ reached)) blocks
  simpa only [← decide_not] using parts

/-- `release(false)` destroys the free roots and keeps everything else. -/
theorem EagerSound.release (sound : EagerSound allocator live forest) :
    EagerSound allocator.release.sweep live
        (forest.filter fun tree => !idleRoot allocator.mFreeList tree) ∧
      ∃ dropped, allocator.release.sweep.released = allocator.released ++ dropped ∧ dropped.Perm
          ((forest.filter (idleRoot allocator.mFreeList)).map root) := by
  have released : Balanced allocator.release.nodes allocator.release.nodeCount
        allocator.release.mFreeList
        (allocator.release.mUsedList.map Prod.snd ++ allocator.release.mGroups.flatten)
        (forest.filter fun tree => !idleRoot allocator.mFreeList tree) :=
    sound.balanced.release
  have rootsDistinct : (forest.map root).Nodup :=
    sound.roots.nodup_iff.mp (nodup_append.mp sound.blocks.once).2.1
  rcases part_blocks (idleRoot allocator.mFreeList) rootsDistinct sound.roots
        fun block _ => released.mem_roots block with
    ⟨keptPerm, droppedPerm⟩
  have partition := filter_mem_partition allocator.blocks (allocator.release.listed.map
        (allocator.release.rootOf allocator.release.nodeCount))
  have totalEq : allocator.release.mTotalSize = ((allocator.blocks.filter fun block =>
          block ∈ allocator.release.listed.map
            (allocator.release.rootOf allocator.release.nodeCount)).map
          fun block => (allocator.nodes block).size).sum := by
    have sums := (partition.map fun block => (allocator.nodes block).size).sum_eq
    have freed := ((sound.balanced.freeRoots.trans droppedPerm.symm).map fun block =>
        (allocator.nodes block).size).sum_eq
    rw [map_append, sum_append, ← sound.blocks.total] at sums
    have fold :
        allocator.release.mTotalSize = allocator.mTotalSize - ((allocator.mFreeList.filter fun id =>
              (allocator.nodes id).parent = none).map fun id =>
                (allocator.nodes id).size).sum := by
      apply foldl_subSize
      rw [freed]
      omega
    rw [fold, freed]
    omega
  have sublist : (allocator.release.sweep.blocks).Sublist allocator.blocks := filter_sublist
  refine ⟨?_, _, rfl, droppedPerm⟩
  exact
    { balanced := released
      roots := keptPerm
      blocks :=
        { apart := sound.blocks.apart.sublist sublist
          nonNull := fun block member =>
            sound.blocks.nonNull block (sublist.subset member)
          total := totalEq
          once := by
            have distinct := ((partition.append_left allocator.released).nodup_iff).mpr
                sound.blocks.once
            show ((allocator.released ++ List.filter _ _) ++ List.filter _ _).Nodup
            rw [append_assoc]
            exact (perm_append_comm.append_left allocator.released).nodup_iff.mpr distinct
          created := by
            intro block member
            apply sound.blocks.created
            rcases mem_append.mp member with before | stays
            · rcases mem_append.mp before with earlier | now
              · exact mem_append_left _ earlier
              · exact mem_append_right _ (mem_of_mem_filter now)
            · exact mem_append_right _ (sublist.subset stays) }
      clients := sound.clients
      group := sound.group }

end Mnn.Core.BufferAllocator
