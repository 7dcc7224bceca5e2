import Mnn.Core.EagerSession

/-!
# Allocation from the eager allocator

`alloc` takes a leaf out of a group list, takes or splits a leaf of the main
free list, or obtains a block.  A search changes nothing when it finds no node;
only the last of these ways can disturb the balance of the forest, and
`CutFits` is the condition under which it does not.
-/

variable {value unit size align index nodeCount cut : Nat} {live : List (Pointer × Nat)}
  {forest : Forest} {x id : NodeId} {list : FreeListPtr} {main others : List NodeId}
  {nodes : NodeId → EagerNode}

namespace Mnn.Core.BufferAllocator

open Mnn.Foundation.SplitRanges
open List
open Function
open Nat
open EagerBufferAllocator

/-! ## Handing chunks out -/

theorem le_upDiv_mul (positive : 0 < unit) :
    value ≤ upDiv value unit * unit := by
  have division := div_add_mod (value + unit - 1) unit
  have remainder := mod_lt (value + unit - 1) positive
  rw [mul_comm] at division
  unfold upDiv
  omega

theorem upDiv_mul_lt (positive : 0 < unit) :
    upDiv value unit * unit < value + unit := by
  have division := div_mul_le_self (value + unit - 1) unit
  unfold upDiv
  omega

variable (allocator : EagerBufferAllocator)

theorem EagerBufferAllocator.alignOffset_fits (node : EagerNode) (positive : 0 < align)
    (large :
      (if allocator.mAlign % align ≠ 0 then size + align - 1 else size) ≤
        node.size) :
    (allocator.alignOffset node.pointer align).1 = node.pointer.1 ∧
      node.pointer.2 ≤ (allocator.alignOffset node.pointer align).2 ∧
      (allocator.alignOffset node.pointer align).2 + size ≤ node.pointer.2 +
          (if allocator.mAlign % align ≠ 0 then
            size + (allocator.alignOffset node.pointer align).2 - node.pointer.2
          else size) ∧
      (if allocator.mAlign % align ≠ 0 then
          size + (allocator.alignOffset node.pointer align).2 - node.pointer.2
        else size) ≤ node.size := by
  by_cases extra : allocator.mAlign % align ≠ 0
  · rw [if_pos extra] at large
    simp only [alignOffset, if_pos extra]
    have lower : node.pointer.2 ≤ upDiv node.pointer.2 align * align := le_upDiv_mul positive
    have upper : upDiv node.pointer.2 align * align < node.pointer.2 + align :=
      upDiv_mul_lt positive
    refine ⟨trivial, lower, ?_, ?_⟩
    · omega
    · omega
  · rw [if_neg extra] at large
    simp only [alignOffset, if_neg extra]
    exact ⟨trivial, Nat.le_refl _, Nat.le_refl _, large⟩

section

variable {earlier later : EagerBufferAllocator} {live : List (Pointer × Nat)}
  {forest forest' : Forest} {pointer : Pointer} {id : NodeId} {size : Nat}
  (sound : EagerSound earlier live forest)

include sound

theorem EagerSound.handOver (places : SamePlaces earlier.nodes later.nodes earlier.nodeCount)
    (blocks : SoundBlocks later) (roots : later.blocks.Perm (forest'.map SplitTree.root))
    (balanced : Balanced later.nodes later.nodeCount later.mFreeList
        (id :: (earlier.mUsedList.map Prod.snd ++ later.mGroups.flatten))
        forest') (used : later.mUsedList = (pointer, id) :: earlier.mUsedList)
    (fresh : pointer ∉ earlier.mUsedList.map Prod.fst)
    (fits : (⟨pointer, id, size⟩ : Entry).Fits later.nodes)
    (group : ∀ index, later.mCurrentFreeList = some index → index < later.mGroups.length) :
    EagerSound later ((pointer, size) :: live) forest' where
  balanced := by
    rw [used]
    exact balanced
  roots := roots
  blocks := blocks
  clients := by
    rcases sound.clients with ⟨entries, clients⟩
    have transported := clients.moved places (sound.entry_old clients)
    refine ⟨⟨pointer, id, size⟩ :: entries, ?_, ?_, ?_, ?_⟩
    · rw [used, transported.used]
      rfl
    · rw [transported.live]
      rfl
    · rw [map_cons]
      refine nodup_cons.mpr ⟨?_, transported.distinct⟩
      intro member
      apply fresh
      rw [clients.used, map_map]
      exact member
    · intro entry member
      rcases mem_cons.mp member with rfl | old
      · exact fits
      · exact transported.fits entry old
  group := group

/-- The same when the chunk comes out of a block that is held already. -/
theorem EagerSound.handOut (kept : Kept earlier later)
    (balanced : Balanced later.nodes later.nodeCount later.mFreeList
        (id :: (earlier.mUsedList.map Prod.snd ++ later.mGroups.flatten))
        forest') (roots : forest'.map SplitTree.root = forest.map SplitTree.root)
    (used : later.mUsedList = (pointer, id) :: earlier.mUsedList)
    (fresh : pointer ∉ earlier.mUsedList.map Prod.fst)
    (fits : (⟨pointer, id, size⟩ : Entry).Fits later.nodes)
    (group : ∀ index, later.mCurrentFreeList = some index → index < later.mGroups.length) :
    EagerSound later ((pointer, size) :: live) forest' := by
  have sameRoots : later.blocks.Perm (forest'.map SplitTree.root) := by
    rw [kept.blocks, roots]
    exact sound.roots
  exact sound.handOver kept.nodes (sound.blocks.kept kept) sameRoots balanced used fresh fits group

end

theorem flatten_set_perm {groups : List (List NodeId)} (bound : index < groups.length) :
    ∃ rest, groups.flatten.Perm (groups.getD index [] ++ rest) ∧
        ∀ list, (groups.set index list).flatten.Perm (list ++ rest) := by
  induction groups generalizing index with
  | nil => cases bound
  | cons group groups ih =>
    cases index with
    | zero =>
      exact ⟨groups.flatten, List.Perm.refl _, fun _ => List.Perm.refl _⟩
    | succ index =>
      rcases ih (lt_of_succ_lt_succ bound) with
        ⟨rest, whole, changed⟩
      refine ⟨group ++ rest, ?_, ?_⟩
      · refine (whole.append_left group).trans ?_
        rw [← append_assoc, ← append_assoc]
        exact perm_append_comm.append_right _
      · intro list
        refine ((changed list).append_left group).trans ?_
        rw [← append_assoc, ← append_assoc]
        exact perm_append_comm.append_right _

section

variable {allocator : EagerBufferAllocator} {live : List (Pointer × Nat)} {forest : Forest} {x : NodeId}

theorem EagerSound.freeList_leaf (sound : EagerSound allocator live forest)
    (listed : x ∈ allocator.freeList list) :
    x ∈ Forest.leaves forest ∧ x ∉ allocator.mUsedList.map Prod.snd := by
  have apart := nodup_append.mp sound.balanced.listed_nodup
  cases list with
  | main =>
    refine ⟨sound.balanced.listed.subset (mem_append_left _ listed), fun inUse => ?_⟩
    exact apart.2.2 x listed x (mem_append_left _ inUse) rfl
  | group index =>
    have inFlat : x ∈ allocator.mGroups.flatten := by
      change x ∈ allocator.mGroups.getD index [] at listed
      rw [getD_eq_getElem?_getD] at listed
      cases found : allocator.mGroups[index]? with
      | none =>
        rw [found] at listed
        cases listed
      | some group =>
        rw [found] at listed
        exact mem_flatten.mpr ⟨group, mem_of_getElem? found, listed⟩
    refine ⟨sound.balanced.listed.subset (mem_append_right _ (mem_append_right _ inFlat)), fun inUse => ?_⟩
    exact (nodup_append.mp apart.2.1).2.2 x inUse x inFlat rfl

/-- A listed node that is large enough has a place for the chunk. -/
theorem EagerSound.chunk (sound : EagerSound allocator live forest)
    (positive : 0 < size) (noAlign : align ≠ 0) (listed : x ∈ allocator.freeList list)
    (large : (if allocator.mAlign % align ≠ 0 then size + align - 1 else size) ≤
        (allocator.nodes x).size) :
    let chunk := allocator.alignOffset (allocator.nodes x).pointer align
    (⟨chunk, x, size⟩ : Entry).Fits allocator.nodes ∧
      chunk ∉ allocator.mUsedList.map Prod.fst ∧ chunk.1 ≠ 0 := by
  have leaf := sound.freeList_leaf listed
  have aligned := allocator.alignOffset_fits (allocator.nodes x) (Nat.pos_of_ne_zero noAlign) large
  have fits : (⟨allocator.alignOffset (allocator.nodes x).pointer align, x, size⟩ : Entry).Fits
        allocator.nodes := by
    constructor
    · exact positive
    · exact aligned.1.symm
    · exact aligned.2.1
    · exact Nat.le_trans aligned.2.2.1 (Nat.add_le_add_left aligned.2.2.2 _)
  refine ⟨fits, sound.key_fresh leaf.1 leaf.2 fits, ?_⟩
  rw [aligned.1]
  exact sound.leaf_notNull leaf.1

end

theorem EagerSound.getFromGroup {allocator later : EagerBufferAllocator} {pointer : Pointer}
    (sound : EagerSound allocator live forest) (positive : 0 < size)
    (bound : index < allocator.mGroups.length)
    (got :
      allocator.getFromFreeList (.group index) size false align =
        some (pointer, later)) :
    (pointer = (0, 0) ∧ later = allocator) ∨ (pointer.1 ≠ 0 ∧
        ∃ forest', EagerSound later ((pointer, size) :: live) forest') := by
  unfold getFromFreeList at got
  by_cases noAlign : align = 0
  · rw [if_pos noAlign] at got
    cases got
  rw [if_neg noAlign] at got
  simp only [Bool.false_eq_true, if_false, or_true, if_true] at got
  split at got
  · cases got
    exact Or.inl ⟨rfl, rfl⟩
  · next x found =>
      split_ifs at got with noUnit
      cases got
      right
      have inGroup : x ∈ allocator.freeList (.group index) := mem_of_find?_eq_some found
      have large := find?_some found
      simp only [decide_eq_true_eq] at large
      obtain ⟨fits, fresh, notNull⟩ := sound.chunk positive noAlign inGroup large
      generalize allocator.alignOffset (allocator.nodes x).pointer align = pointer
          at fits fresh notNull ⊢
      rcases flatten_set_perm bound with ⟨rest, whole, changed⟩
      have inserted :
          allocator.insertUsed pointer x =
            { allocator with
              mUsedList := (pointer, x) :: allocator.mUsedList } := by
        rw [insertUsed, if_neg fresh]
      rw [inserted]
      have removed := perm_cons_erase inGroup
      have groupsPerm : (x :: (allocator.mUsedList.map Prod.snd ++ (allocator.mGroups.set index
              ((allocator.freeList (.group index)).erase x)).flatten)).Perm
            (allocator.mUsedList.map Prod.snd ++ allocator.mGroups.flatten) := by
        refine perm_middle.symm.trans (List.Perm.append_left _ ?_)
        refine ((changed _).cons x).trans ?_
        exact (removed.symm.append_right rest).trans whole.symm
      refine ⟨notNull, forest, ?_⟩
      refine sound.handOut ?_ ?_ rfl rfl fresh fits ?_
      · exact
          { nodes := fun _ _ => ⟨rfl, rfl⟩
            grown := Nat.le_refl _
            blocks := rfl
            released := rfl
            total := rfl }
      · exact sound.balanced.others_perm groupsPerm
      · intro other current
        have before := sound.group other current
        simpa [eraseFree, setFreeList] using before

/-- The heap after a split. -/
def splitHeap (nodes : NodeId → EagerNode) (nodeCount : Nat) (x : NodeId)
    (cut rest : Nat) : NodeId → EagerNode :=
  update (withUseCount (update nodes nodeCount
        { parent := some x, size := cut, pointer := (nodes x).pointer })
      x 1)
    (nodeCount + 1)
    { parent := some x
      size := rest
      pointer := ((nodes x).pointer.1, (nodes x).pointer.2 + cut) }

theorem splitHeap_spec (nodes : NodeId → EagerNode) (cut : Nat) (created : x < nodeCount) :
    SplitNodes nodes (splitHeap nodes nodeCount x cut ((nodes x).size - cut)) nodeCount x cut := by
  have notFirst : x ≠ nodeCount := Nat.ne_of_lt created
  have notSecond : x ≠ nodeCount + 1 := Nat.ne_of_lt (lt_succ_of_lt created)
  unfold splitHeap
  constructor
  · rw [update_of_ne (Nat.succ_ne_self _).symm,
      withUseCount_other _ _ notFirst.symm, update_self]
  · rw [update_self]
  · rw [update_of_ne notSecond, withUseCount_self, update_of_ne notFirst]
  · intro id old different
    rw [update_of_ne (Nat.ne_of_lt (lt_succ_of_lt old)),
      withUseCount_other _ _ different,
      update_of_ne (Nat.ne_of_lt old)]

theorem EagerBufferAllocator.splitFree_eq {pointer : Pointer} {sizeAlign : Nat}
    (created : x < allocator.nodeCount) (uncounted : (allocator.nodes x).useCount = 0)
    (fresh : pointer ∉ allocator.mUsedList.map Prod.fst) :
    ∃ mFreeList, mFreeList.Perm ((allocator.nodeCount + 1) :: allocator.mFreeList.erase x) ∧
        allocator.splitFree .main x pointer sizeAlign =
          { allocator with
            nodes := splitHeap allocator.nodes allocator.nodeCount x sizeAlign
                ((allocator.nodes x).size - sizeAlign)
            nodeCount := allocator.nodeCount + 2
            mUsedList := (pointer, allocator.nodeCount) :: allocator.mUsedList
            mFreeList } := by
  have count : (update allocator.nodes allocator.nodeCount
        { parent := some x
          size := sizeAlign
          pointer := (allocator.nodes x).pointer } x).useCount = 0 := by
    rw [update_of_ne (Nat.ne_of_lt created)]
    exact uncounted
  refine ⟨({ allocator with
        nodes := splitHeap allocator.nodes allocator.nodeCount x sizeAlign
            ((allocator.nodes x).size - sizeAlign) } :
      EagerBufferAllocator).insertBySize (allocator.nodeCount + 1) (allocator.mFreeList.erase x),
      insertBySize_perm _ _ _, ?_⟩
  simp only [splitFree, newNode, insertUsed, fresh, if_false, setUseCount, count]
  rfl

theorem EagerBufferAllocator.useParent_frame (x : NodeId) :
    allocator.useParent x = { allocator with nodes := (allocator.useParent x).nodes } := by
  unfold useParent
  cases (allocator.nodes x).parent <;> rfl

theorem Balanced.leaf_count (balanced : Balanced nodes nodeCount main others forest)
    (listed : x ∈ main ++ others) :
    (nodes x).useCount = 0 := by
  rcases balanced.locate listed with ⟨before, frames, after, rfl⟩
  have member : plug frames (.leaf x) ∈ before ++ plug frames (.leaf x) :: after :=
    mem_append_cons_self
  exact (counted_plug.mp (balanced.counted _ member)).1

theorem SplitNodes.kept {nodes' : NodeId → EagerNode}
    (splitNodes : SplitNodes nodes nodes' nodeCount x cut) (old : id < nodeCount) :
    (nodes' id).pointer = (nodes id).pointer ∧ (nodes' id).size = (nodes id).size := by
  by_cases isX : id = x
  · rw [isX, splitNodes.parent]
    exact ⟨rfl, rfl⟩
  · rw [splitNodes.others id old isX]
    exact ⟨rfl, rfl⟩

/-- A chunk at the front of a leaf that is not listed any more, which is split. -/
theorem EagerSound.handCut {earlier middle : EagerBufferAllocator}
    {forest' : Forest} {mFreeList : List NodeId} {pointer : Pointer}
    (sound : EagerSound earlier live forest)
    (places : SamePlaces earlier.nodes middle.nodes earlier.nodeCount)
    (grown : earlier.nodeCount ≤ middle.nodeCount) (blocks : SoundBlocks middle)
    (roots : middle.blocks.Perm (forest'.map SplitTree.root))
    (balanced : Balanced middle.nodes middle.nodeCount main
        (x :: (earlier.mUsedList.map Prod.snd ++ middle.mGroups.flatten)) forest')
    (fresh : pointer ∉ earlier.mUsedList.map Prod.fst)
    (group : ∀ index, middle.mCurrentFreeList = some index → index < middle.mGroups.length)
    (inserted : mFreeList.Perm ((middle.nodeCount + 1) :: main))
    (smaller : cut ≤ (middle.nodes x).size) (fits : (⟨pointer, x, size⟩ : Entry).Fits middle.nodes)
    (enough : pointer.2 + size ≤ (middle.nodes x).pointer.2 + cut) :
    ∃ forest', EagerSound
        { middle with
          nodes := splitHeap middle.nodes middle.nodeCount x cut ((middle.nodes x).size - cut)
          nodeCount := middle.nodeCount + 2
          mUsedList := (pointer, middle.nodeCount) :: earlier.mUsedList
          mFreeList }
      ((pointer, size) :: live) forest' := by
  have listed : x ∈ main ++ (x :: (earlier.mUsedList.map Prod.snd ++ middle.mGroups.flatten)) :=
    mem_append_cons_self
  have created := balanced.created x
      ((Forest.leaves_sublist _).subset (balanced.listed.subset listed))
  have splitNodes := splitHeap_spec middle.nodes cut created
  rcases balanced.locate listed with ⟨before, frames, after, rfl⟩
  refine ⟨_, sound.handOver (fun id old => ?_) (blocks.kept ?_) ?_
    (balanced.split splitNodes smaller inserted) rfl fresh ?_ group⟩
  · have atMiddle := places id old
    have atSplit := splitNodes.kept (Nat.lt_of_lt_of_le old grown)
    exact ⟨atSplit.1.trans atMiddle.1, atSplit.2.trans atMiddle.2⟩
  · exact
      { nodes := fun id old => splitNodes.kept old
        grown := le_add_right _ _
        blocks := rfl
        released := rfl
        total := rfl }
  · have sameRoot : (plug frames (.split x (.leaf middle.nodeCount) (.leaf (middle.nodeCount + 1)))).root =
        (plug frames (.leaf x)).root :=
      plug_root frames rfl
    rw [map_append, map_cons, sameRoot, ← map_cons, ← map_append]
    exact roots
  · constructor
    · exact fits.positive
    · show (splitHeap _ _ _ _ _ middle.nodeCount).pointer.1 = _
      rw [splitNodes.first]
      exact fits.base
    · show (splitHeap _ _ _ _ _ middle.nodeCount).pointer.2 ≤ _
      rw [splitNodes.first]
      exact fits.first
    · show _ ≤ (splitHeap _ _ _ _ _ middle.nodeCount).pointer.2 +
        (splitHeap _ _ _ _ _ middle.nodeCount).size
      rw [splitNodes.first]
      exact enough

/-- A chunk out of the main list is a whole node or the first part of one. -/
theorem EagerSound.getFromMain {allocator later : EagerBufferAllocator} {pointer : Pointer}
    (sound : EagerSound allocator live forest) (positive : 0 < size)
    (got :
      allocator.getFromFreeList .main size true align =
        some (pointer, later)) :
    (pointer = (0, 0) ∧ later = allocator) ∨ (pointer.1 ≠ 0 ∧
        ∃ forest', EagerSound later ((pointer, size) :: live) forest') := by
  unfold getFromFreeList at got
  by_cases noAlign : align = 0
  · rw [if_pos noAlign] at got
    cases got
  rw [if_neg noAlign] at got
  simp only [if_true, Bool.true_eq_false, or_false] at got
  split at got
  · cases got
    exact Or.inl ⟨rfl, rfl⟩
  · next x found =>
      by_cases noUnit : allocator.mAlign = 0
      · rw [if_pos noUnit] at got
        cases got
      rw [if_neg noUnit] at got
      right
      have free : x ∈ allocator.freeList .main := mem_of_find?_eq_some found
      have large := find?_some found
      simp only [decide_eq_true_eq] at large
      have created : x < allocator.nodeCount :=
        sound.balanced.created x ((Forest.leaves_sublist _).subset (sound.freeList_leaf free).1)
      obtain ⟨fits, fresh, notNull⟩ := sound.chunk positive noAlign free large
      have aligned := allocator.alignOffset_fits (allocator.nodes x)
          (Nat.pos_of_ne_zero noAlign) large
      generalize allocator.alignOffset (allocator.nodes x).pointer align = chunk
          at aligned got fits fresh notNull
      generalize (if allocator.mAlign % align ≠ 0 then
            size + chunk.2 - (allocator.nodes x).pointer.2
          else size) = realSize at aligned got
      have taken := sound.balanced.take free
      have takenKept := (Recounted.useParent allocator x).kept
      rw [allocator.useParent_frame x] at got takenKept
      generalize (allocator.useParent x).nodes = nodes at got taken takenKept
      have takenX := takenKept.nodes x created
      have takenFits : (⟨chunk, x, size⟩ : Entry).Fits nodes := by
        constructor
        · exact positive
        · rw [takenX.1]
          exact fits.base
        · rw [takenX.1]
          exact fits.first
        · rw [takenX.1, takenX.2]
          exact fits.last
      by_cases whole : upDiv realSize allocator.mAlign * allocator.mAlign ≥ (allocator.nodes x).size
      · rw [if_pos whole, insertUsed, if_neg fresh] at got
        cases got
        refine ⟨notNull, forest, ?_⟩
        refine sound.handOut ?_ taken rfl rfl fresh takenFits sound.group
        exact takenKept.trans
          { nodes := fun _ _ => ⟨rfl, rfl⟩
            grown := Nat.le_refl _
            blocks := rfl
            released := rfl
            total := rfl }
      · rw [if_neg whole] at got
        have uncounted : (nodes x).useCount = 0 := taken.leaf_count (mem_append_cons_self)
        rcases splitFree_eq
            { allocator with nodes := nodes } created uncounted fresh with
          ⟨mFreeList, inserted, splitEq⟩
        rw [splitEq] at got
        cases got
        have smaller : upDiv realSize allocator.mAlign * allocator.mAlign ≤ (nodes x).size := by
          rw [takenX.2]
          exact Nat.le_of_lt (Nat.lt_of_not_ge whole)
        have enough : realSize ≤ upDiv realSize allocator.mAlign * allocator.mAlign :=
          le_upDiv_mul (Nat.pos_of_ne_zero noUnit)
        refine ⟨notNull, sound.handCut takenKept.nodes takenKept.grown (sound.blocks.kept takenKept)
          sound.roots taken fresh sound.group inserted smaller takenFits ?_⟩
        show _ ≤ (nodes x).pointer.2 + _
        rw [takenX.1]
        exact Nat.le_trans aligned.2.2.1 (Nat.add_le_add_left enough _)

/-! ## Blocks from outside -/

theorem Balanced.newRoot (balanced : Balanced nodes nodeCount main others forest)
    {node : EagerNode} (rootless : node.parent = none) (uncounted : node.useCount = 0) :
    Balanced (update nodes nodeCount node) (nodeCount + 1) main
      (nodeCount :: others) (.leaf nodeCount :: forest) := by
  have same : ∀ id < nodeCount, update nodes nodeCount node id = nodes id :=
    fun id old => update_of_ne (Nat.ne_of_lt old) _ _
  have old :
      ∀ tree ∈ forest, ∀ id ∈ tree.ids, update nodes nodeCount node id = nodes id := by
    intro tree inForest id inside
    exact same id (balanced.created id (mem_flatMap.mpr ⟨tree, inForest, inside⟩))
  exact
    { listed := perm_middle.trans (balanced.listed.cons nodeCount)
      distinct := by
        show (nodeCount :: Forest.ids forest).Nodup
        refine nodup_cons.mpr ⟨?_, balanced.distinct⟩
        intro member
        exact Nat.lt_irrefl _ (balanced.created _ member)
      created := by
        intro id member
        rcases mem_cons.mp member with rfl | earlier
        · exact lt_succ_self _
        · exact lt_succ_of_lt (balanced.created id earlier)
      built := by
        intro tree member
        rcases mem_cons.mp member with rfl | earlier
        · trivial
        · apply (balanced.built tree earlier).congr
          intro id inside
          simp only [shape, old tree earlier id inside, and_self]
      rooted := by
        intro tree member
        rcases mem_cons.mp member with rfl | earlier
        · rw [SplitTree.root_leaf, update_self]
          exact rootless
        · rw [old tree earlier _ tree.root_mem_ids]
          exact balanced.rooted tree earlier
      counted := by
        intro tree member
        rcases mem_cons.mp member with rfl | earlier
        · show (update nodes nodeCount node nodeCount).useCount = 0
          rw [update_self]
          exact uncounted
        · apply (balanced.counted tree earlier).congr
          · intro id inside
            simp only [old tree earlier id inside]
          · intro id _
            rfl }

theorem EagerBufferAllocator.le_allocSize (size : Nat) : size ≤ allocator.allocSize size := by
  unfold allocSize
  split_ifs
  · exact Nat.le_max_right _ _
  · exact Nat.le_refl _

/-- A block apart from those held is apart from every chunk in use. -/
theorem EagerSound.answer_fresh {allocator : EagerBufferAllocator} {answer : Pointer}
    (sound : EagerSound allocator live forest) (positive : 0 < size)
    (valid : allocator.ValidAnswer size answer) (notNull : answer.1 ≠ 0) :
    answer ∉ allocator.mUsedList.map Prod.fst := by
  intro inUse
  rcases valid with isNull | apart
  · exact notNull isNull
  rcases sound.clients with ⟨entries, clients⟩
  rw [clients.used, map_map] at inUse
  rcases mem_map.mp inUse with ⟨entry, member, samePointer⟩
  rcases mem_flatMap.mp ((sound.entry_leaf clients).2 entry member) with
    ⟨tree, inForest, leaf⟩
  have inside := sound.balanced.leaf_inside inForest leaf
  have fits := clients.fits entry member
  have block := apart tree.root (sound.roots.symm.subset (mem_map_of_mem inForest))
  have same : entry.pointer = answer := samePointer
  have large := allocator.le_allocSize size
  have entryPositive := fits.positive
  have first := fits.first
  have last := fits.last
  rw [same] at first last
  rcases block with base | before | after
  · exact base (by rw [← inside.1, fits.base, same])
  · omega
  · omega

theorem EagerBufferAllocator.obtainBlock_new (allocSize : Nat) (chunk : Pointer) :
    (allocator.obtainBlock allocSize chunk).nodes allocator.nodeCount =
      { size := allocSize, pointer := chunk } :=
  update_self ..

theorem EagerBufferAllocator.obtainBlock_old (allocSize : Nat) (chunk : Pointer)
    (old : id < allocator.nodeCount) :
    (allocator.obtainBlock allocSize chunk).nodes id = allocator.nodes id :=
  update_of_ne (Nat.ne_of_lt old) _ _

theorem SoundBlocks.obtain {allocator : EagerBufferAllocator} {answer : Pointer}
    (blocks : SoundBlocks allocator) (valid : allocator.ValidAnswer size answer)
    (notNull : answer.1 ≠ 0) :
    SoundBlocks (allocator.obtainBlock (allocator.allocSize size) answer) := by
  have apart : ∀ block ∈ allocator.blocks, RangesApart answer (allocator.allocSize size)
          (allocator.nodes block).pointer (allocator.nodes block).size := by
    rcases valid with isNull | apart
    · exact absurd isNull notNull
    · exact apart
  have new := allocator.obtainBlock_new (allocator.allocSize size) answer
  have same : ∀ block ∈ allocator.blocks, (allocator.obtainBlock
          (allocator.allocSize size) answer).nodes block =
          allocator.nodes block := by
    intro block member
    apply allocator.obtainBlock_old
    exact blocks.created block (mem_append_right _ member)
  have fresh : allocator.nodeCount ∉ allocator.released ++ allocator.blocks := by
    intro member
    exact Nat.lt_irrefl _ (blocks.created _ member)
  have blocksEq :
      (allocator.obtainBlock (allocator.allocSize size) answer).blocks =
        allocator.nodeCount :: allocator.blocks :=
    rfl
  have totalEq :
      (allocator.obtainBlock (allocator.allocSize size) answer).mTotalSize =
        allocator.mTotalSize + allocator.allocSize size :=
    rfl
  constructor
  · rw [blocksEq]
    refine List.Pairwise.cons ?_ ?_
    · intro block member
      unfold NodesApart
      rw [new, same block member]
      exact apart block member
    · refine blocks.apart.imp_of_mem ?_
      intro first second firstMember secondMember firstApart
      unfold NodesApart
      rw [same first firstMember, same second secondMember]
      exact firstApart
  · rw [blocksEq]
    intro block member
    rcases mem_cons.mp member with rfl | old
    · rw [new]
      exact notNull
    · rw [same block old]
      exact blocks.nonNull block old
  · have sizes : (allocator.blocks.map fun block =>
          ((allocator.obtainBlock (allocator.allocSize size) answer).nodes block).size) =
          allocator.blocks.map fun block =>
            (allocator.nodes block).size := by
      refine map_congr_left ?_
      intro block member
      rw [same block member]
    rw [blocksEq, totalEq, map_cons, sum_cons, new, sizes, blocks.total, add_comm]
  · exact perm_middle.nodup_iff.mpr (nodup_cons.mpr ⟨fresh, blocks.once⟩)
  · rw [blocksEq]
    intro block member
    rcases mem_cons.mp (perm_middle.subset member) with rfl | old
    · exact lt_succ_self _
    · exact lt_succ_of_lt (blocks.created block old)

/-- What `splitBlock` does to a new root node outside all groups. -/
theorem EagerBufferAllocator.splitBlock_eq {node : NodeId} {chunk : Pointer} (allocSize size : Nat)
    (place : (allocator.nodes node).pointer = chunk)
    (fresh : chunk ∉ allocator.mUsedList.map Prod.fst)
    (noGroup : allocator.mCurrentFreeList = none) :
    ∃ mFreeList, mFreeList.Perm ((allocator.nodeCount + 1) :: allocator.mFreeList) ∧
        allocator.splitBlock node chunk allocSize size =
          { allocator with
            nodes := splitHeap allocator.nodes allocator.nodeCount node size
                (subSize allocSize size)
            nodeCount := allocator.nodeCount + 2
            mUsedList := (chunk, allocator.nodeCount) :: allocator.mUsedList
            mFreeList } := by
  refine ⟨({ allocator with
        nodes := splitHeap allocator.nodes allocator.nodeCount node size
            (subSize allocSize size) } :
      EagerBufferAllocator).insertBySize (allocator.nodeCount + 1) allocator.mFreeList,
      insertBySize_perm _ _ _, ?_⟩
  subst place
  simp only [splitBlock, newNode, insertUsed, fresh, if_false, setUseCount, noGroup]
  rfl

/-- The request can be cut off the block without disturbing a group. -/
def EagerBufferAllocator.CutFits (allocator : EagerBufferAllocator) (size : Nat) : Prop :=
  allocator.allocSize size = size ∨ (allocator.mCurrentFreeList = none ∧
      upDiv size allocator.mAlign * allocator.mAlign ≤ allocator.allocSize size)

theorem EagerSound.allocOutside {allocator later : EagerBufferAllocator} {answer pointer : Pointer}
    (sound : EagerSound allocator live forest) (positive : 0 < size)
    (valid : allocator.ValidAnswer size answer) (cutFits : answer.1 ≠ 0 → allocator.CutFits size)
    (got : allocator.allocOutside size answer = some (pointer, later)) :
    (pointer.1 = 0 ∧ later = allocator) ∨ (pointer.1 ≠ 0 ∧
        ∃ forest', EagerSound later ((pointer, size) :: live) forest') := by
  unfold EagerBufferAllocator.allocOutside at got
  by_cases isNull : answer.1 = 0
  · rw [if_pos isNull] at got
    cases got
    exact Or.inl ⟨isNull, rfl⟩
  rw [if_neg isNull] at got
  right
  have fresh := sound.answer_fresh positive valid isNull
  have blocks := sound.blocks.obtain valid isNull
  have new := allocator.obtainBlock_new (allocator.allocSize size) answer
  have places : SamePlaces allocator.nodes
        (allocator.obtainBlock (allocator.allocSize size) answer).nodes
        allocator.nodeCount := by
    intro id old
    rw [allocator.obtainBlock_old _ _ old]
    exact ⟨rfl, rfl⟩
  have rooted : Balanced (allocator.obtainBlock (allocator.allocSize size) answer).nodes
        (allocator.nodeCount + 1) allocator.mFreeList
        (allocator.nodeCount :: (allocator.mUsedList.map Prod.snd ++ allocator.mGroups.flatten))
        (.leaf allocator.nodeCount :: forest) :=
    sound.balanced.newRoot rfl rfl
  have roots : (allocator.nodeCount :: allocator.blocks).Perm
        ((.leaf allocator.nodeCount :: forest : Forest).map SplitTree.root) :=
    sound.roots.cons _
  have place : ((allocator.obtainBlock (allocator.allocSize size)
        answer).nodes allocator.nodeCount).pointer = answer := by
    rw [new]
  have sizeEq : ((allocator.obtainBlock (allocator.allocSize size)
        answer).nodes allocator.nodeCount).size = allocator.allocSize size := by
    rw [new]
  have fits : (⟨answer, allocator.nodeCount, size⟩ : Entry).Fits
      (allocator.obtainBlock (allocator.allocSize size) answer).nodes := by
    constructor
    · exact positive
    · rw [place]
    · exact Nat.le_of_eq (congrArg Prod.snd place)
    · rw [place, sizeEq]
      exact Nat.add_le_add_left (allocator.le_allocSize size) _
  by_cases larger : allocator.allocSize size > size
  · rw [if_pos larger] at got
    rcases cutFits isNull with whole | ⟨noGroup, cut⟩
    · exact absurd whole (Nat.ne_of_gt larger)
    have alignEq :
        (allocator.obtainBlock (allocator.allocSize size) answer).mAlign =
          allocator.mAlign :=
      rfl
    rw [alignEq] at got
    by_cases noUnit : allocator.mAlign = 0
    · rw [if_pos noUnit] at got
      cases got
    rw [if_neg noUnit] at got
    rcases splitBlock_eq (allocator.obtainBlock (allocator.allocSize size) answer)
        (allocator.allocSize size)
        (upDiv size allocator.mAlign * allocator.mAlign)
        place fresh noGroup with
      ⟨mFreeList, inserted, splitEq⟩
    simp only [splitEq, subSize, if_pos cut] at got
    cases got
    have enough : size ≤ upDiv size allocator.mAlign * allocator.mAlign :=
      le_upDiv_mul (Nat.pos_of_ne_zero noUnit)
    have handed := sound.handCut places (le_succ _) blocks roots rooted fresh sound.group inserted
      (Nat.le_trans cut (Nat.le_of_eq sizeEq.symm)) fits ?_
    · rw [sizeEq] at handed
      exact ⟨isNull, handed⟩
    · rw [place]
      exact Nat.add_le_add_left enough _
  · rw [if_neg larger] at got
    cases got
    have untouched :
        (allocator.mUsedList.filter fun entry => entry.1 ≠ answer) =
          allocator.mUsedList := by
      rw [filter_eq_self]
      intro entry member
      have different : entry.1 ≠ answer := by
        rintro rfl
        exact fresh (mem_map_of_mem member)
      simpa using different
    refine ⟨isNull, .leaf allocator.nodeCount :: forest, ?_⟩
    refine sound.handOver places ?_ roots rooted ?_ fresh fits sound.group
    · exact ⟨blocks.apart, blocks.nonNull, blocks.total, blocks.once, blocks.created⟩
    · show (answer, allocator.nodeCount) :: List.filter _ _ = _
      exact congrArg _ untouched

/-! ## The calls -/

/-- No listed node is large enough for the request. -/
def EagerBufferAllocator.Exhausted (allocator : EagerBufferAllocator) (list : FreeListPtr)
    (size align : Nat) : Prop :=
  ∀ id ∈ allocator.freeList list, (allocator.nodes id).size <
      if allocator.mAlign % align ≠ 0 then size + align - 1 else size

/-- The request is not served by a free list. -/
def EagerBufferAllocator.GoesOutside
    (allocator : EagerBufferAllocator) (size : Nat) (separate : Bool)
    (align : Nat) : Prop :=
  separate = true ∨ ((∀ group, allocator.mCurrentFreeList = some group →
        allocator.Exhausted (.group group) size (if align = 0 then allocator.mAlign else align)) ∧
      allocator.Exhausted .main size (if align = 0 then allocator.mAlign else align))

theorem EagerSound.exhausted {allocator later : EagerBufferAllocator}
    {permiteSplit : Bool} {pointer : Pointer} (sound : EagerSound allocator live forest)
    (got :
      allocator.getFromFreeList list size permiteSplit align =
        some (pointer, later)) (isNull : pointer.1 = 0) :
    allocator.Exhausted list size align := by
  unfold getFromFreeList at got
  by_cases noAlign : align = 0
  · rw [if_pos noAlign] at got
    cases got
  rw [if_neg noAlign] at got
  simp only at got
  split at got
  · next notFound =>
      intro id member
      have small := List.find?_eq_none.mp notFound id member
      simpa using small
  · next x found =>
      have notNull := sound.leaf_notNull (sound.freeList_leaf (mem_of_find?_eq_some found)).1
      have base :
          (allocator.alignOffset (allocator.nodes x).pointer align).1 =
            (allocator.nodes x).pointer.1 := by
        unfold alignOffset
        split_ifs <;> rfl
      rw [← base] at notNull
      split_ifs at got
      all_goals
        cases got
        exact absurd isNull notNull

/-- `alloc` hands out a chunk apart from all others, or changes nothing. -/
theorem EagerSound.alloc {allocator later : EagerBufferAllocator} {separate : Bool}
    {answer pointer : Pointer} (sound : EagerSound allocator live forest) (positive : 0 < size)
    (valid : allocator.ValidAnswer size answer)
    (cutFits : allocator.GoesOutside size separate align → answer.1 ≠ 0 → allocator.CutFits size)
    (got : allocator.alloc size separate align answer = some (pointer, later)) :
    (pointer.1 = 0 ∧ later = allocator) ∨ (pointer.1 ≠ 0 ∧
        ∃ forest', EagerSound later ((pointer, size) :: live) forest') := by
  unfold EagerBufferAllocator.alloc at got
  simp only at got
  generalize alignEq : (if align = 0 then allocator.mAlign else align) = unit at got
  have mainPart :
      (∀ group, allocator.mCurrentFreeList = some group →
        allocator.Exhausted (.group group) size unit) →
      allocator.allocMain size unit answer = some (pointer, later) →
      (pointer.1 = 0 ∧ later = allocator) ∨ (pointer.1 ≠ 0 ∧
          ∃ forest', EagerSound later ((pointer, size) :: live) forest') := by
    intro noGroup gotMain
    unfold EagerBufferAllocator.allocMain at gotMain
    cases search : allocator.getFromFreeList .main size true unit with
    | none =>
      rw [search] at gotMain
      cases gotMain
    | some result =>
      rcases result with ⟨found, next⟩
      rw [search] at gotMain
      simp only at gotMain
      rcases sound.getFromMain positive search with
        ⟨isNull, rfl⟩ | ⟨notNull, handed⟩
      · have isZero : found.1 = 0 := congrArg Prod.fst isNull
        rw [if_neg (not_not_intro isZero)] at gotMain
        refine sound.allocOutside positive valid (cutFits ?_) gotMain
        refine Or.inr ⟨?_, ?_⟩
        · rw [alignEq]
          exact noGroup
        · rw [alignEq]
          exact sound.exhausted search isZero
      · rw [if_pos notNull] at gotMain
        cases gotMain
        exact Or.inr ⟨notNull, handed⟩
  cases separate with
  | true =>
    rw [if_pos rfl] at got
    exact sound.allocOutside positive valid (cutFits (Or.inl rfl)) got
  | false =>
    rw [if_neg (by simp)] at got
    cases current : allocator.mCurrentFreeList with
    | none =>
      rw [current] at got
      refine mainPart ?_ got
      intro group isSome
      rw [current] at isSome
      cases isSome
    | some index =>
      rw [current] at got
      simp only at got
      cases search : allocator.getFromFreeList (.group index) size false unit with
      | none =>
        rw [search] at got
        cases got
      | some result =>
        rcases result with ⟨found, next⟩
        rw [search] at got
        simp only at got
        rcases sound.getFromGroup positive (sound.group index current) search with
          ⟨isNull, rfl⟩ | ⟨notNull, handed⟩
        · have isZero : found.1 = 0 := congrArg Prod.fst isNull
          rw [if_neg (not_not_intro isZero)] at got
          refine mainPart ?_ got
          intro group isSome
          rw [current] at isSome
          cases isSome
          exact sound.exhausted search isZero
        · rw [if_pos notNull] at got
          cases got
          exact Or.inr ⟨notNull, handed⟩

end Mnn.Core.BufferAllocator
