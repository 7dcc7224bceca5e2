import Mnn.Core.DeferBufferAllocator
import Mnn.Foundation.LinearLayout
import Mnn.Foundation.LinkedList

/-!
# The plan behind the deferred allocator

The state of `DeferBufferAllocator` is a heap of nodes, a doubly linked list
through some of them and a multiset of free ones.  What it means is a linear
layout: every node of the list is a slot, and every node that was fused away
is a mark inside the slot which absorbed it, at the distance that the offsets
along `children` add up to.

`Represents` relates the two.  Each primitive of the allocator is related to
the corresponding change of the layout; `alloc` and `freeNode` are assembled
from them.
-/

variable {chunks chunks' : NodeId → MemNode} {free : Bool} {allocator : DeferBufferAllocator}

namespace Mnn.Core.BufferAllocator

open Mnn.Foundation.LinearLayout
open Mnn.Foundation.LinkedList
open List
open DeferBufferAllocator

/-- Keys of the slots in order. -/
def keys (layout : Layout NodeId) : List NodeId := layout.map Slot.key

/-- Every node which a layout mentions. -/
def nodes (layout : Layout NodeId) : List NodeId :=
  layout.flatMap fun slot => slot.marks.map Prod.fst

@[simp]
theorem keys_nil : keys [] = [] :=
  rfl

@[simp]
theorem nodes_nil : nodes [] = [] :=
  rfl

@[simp]
theorem keys_append (left right : Layout NodeId) :
    keys (left ++ right) = keys left ++ keys right := by
  simp [keys]

@[simp]
theorem keys_cons (slot : Slot NodeId) (layout : Layout NodeId) :
    keys (slot :: layout) = slot.key :: keys layout :=
  rfl

@[simp]
theorem nodes_append (left right : Layout NodeId) :
    nodes (left ++ right) = nodes left ++ nodes right := by
  simp [nodes]

@[simp]
theorem nodes_cons (slot : Slot NodeId) (layout : Layout NodeId) :
    nodes (slot :: layout) = slot.marks.map Prod.fst ++ nodes layout := by
  simp [nodes]

/-! ## Fused nodes as marks -/

/--
The nodes below a list of siblings, each with its distance from the start of
the node that owns the list.
-/
inductive KidMarks (chunks : NodeId → MemNode) :
    List NodeId → List (NodeId × Nat) → Prop where
  | nil : KidMarks chunks [] []
  | cons {kid : NodeId} {kids : List NodeId} {below others : List (NodeId × Nat)}
      (inner : KidMarks chunks (chunks kid).children below)
      (outer : KidMarks chunks kids others) :
      KidMarks chunks (kid :: kids) (shiftMarks (chunks kid).offset ((kid, 0) :: below) ++ others)

variable {chunks : NodeId → MemNode}

theorem KidMarks.append {kids others : List NodeId} {marks otherMarks : List (NodeId × Nat)}
    (front : KidMarks chunks kids marks) (back : KidMarks chunks others otherMarks) :
    KidMarks chunks (kids ++ others) (marks ++ otherMarks) := by
  induction front with
  | nil => exact back
  | cons inner outer innerIH outerIH =>
    rw [cons_append, append_assoc]
    exact .cons inner outerIH

@[simp]
theorem map_fst_shiftMarks (distance : Nat) (marks : List (NodeId × Nat)) :
    (shiftMarks distance marks).map Prod.fst = marks.map Prod.fst := by
  simp [shiftMarks, Function.comp_def]

/-- Marks depend only on the children and offsets of the nodes they name. -/
theorem KidMarks.congr {kids : List NodeId} {marks : List (NodeId × Nat)}
    (kidMarks : KidMarks chunks kids marks)
    (same :
      ∀ id ∈ marks.map Prod.fst, (chunks' id).children = (chunks id).children ∧
          (chunks' id).offset = (chunks id).offset) :
    KidMarks chunks' kids marks := by
  induction kidMarks with
  | nil => exact .nil
  | @cons kid kids below others inner outer innerIH outerIH =>
    have kidSame := same kid (by simp [shiftMarks])
    rw [← kidSame.2]
    refine .cons ?_ ?_
    · rw [kidSame.1]
      apply innerIH
      intro id member
      exact same id (by simp at member ⊢; tauto)
    · apply outerIH
      intro id member
      exact same id (by simp at member ⊢; tauto)

/-! ## The relation -/

/-- What the allocator stores about one slot. -/
structure RepresentsSlot
    (chunks : NodeId → MemNode) (slot : Slot NodeId) : Prop where
  size : (chunks slot.key).size = slot.size
  offset : (chunks slot.key).offset = 0
  marks :
    ∃ below, KidMarks chunks (chunks slot.key).children below ∧ slot.marks = (slot.key, 0) :: below

/-- The linked list and the forests below it, leaving out which slots are free. -/
structure Threads
    (allocator : DeferBufferAllocator) (layout : Layout NodeId) : Prop where
  linked : Linked (fun id => (allocator.mChunks id).left)
      (fun id => (allocator.mChunks id).right) none (keys layout) none
  head : allocator.mHead = (keys layout).head?
  tail : allocator.mTail = (keys layout).getLast?
  distinct : (nodes layout).Nodup
  created : ∀ id ∈ nodes layout, id < allocator.chunkCount
  slots : ∀ slot ∈ layout, RepresentsSlot allocator.mChunks slot

/-- No two neighbours are free. -/
def Coalesced (layout : Layout NodeId) : Prop :=
  layout.IsChain fun left right => ¬(left.free = true ∧ right.free = true)

/-- The allocator's state means the layout. -/
structure Represents
    (allocator : DeferBufferAllocator) (layout : Layout NodeId) : Prop where
  threads : Threads allocator layout
  usage : ∀ slot ∈ layout, (allocator.mChunks slot.key).usage = !slot.free
  freeList : ∀ id, id ∈ allocator.mFreeList ↔ ∃ slot ∈ layout, slot.key = id ∧ slot.free = true
  freeDistinct : allocator.mFreeList.Nodup
  coalesced : Coalesced layout
  unplanned : allocator.mTotalSize = 0

variable {slot : Slot NodeId}

theorem RepresentsSlot.key_mark (represents : RepresentsSlot chunks slot) :
    (slot.key, 0) ∈ slot.marks := by
  rcases represents.marks with ⟨below, -, marksEq⟩
  rw [marksEq]
  exact mem_cons_self

/-- A slot depends only on the sizes, offsets and children of its own nodes. -/
theorem RepresentsSlot.congr {slot : Slot NodeId} (represents : RepresentsSlot chunks slot)
    (sameSize : (chunks' slot.key).size = (chunks slot.key).size)
    (same :
      ∀ id ∈ slot.marks.map Prod.fst, (chunks' id).children = (chunks id).children ∧
          (chunks' id).offset = (chunks id).offset) :
    RepresentsSlot chunks' slot := by
  rcases represents with ⟨size, offset, below, kidMarks, marksEq⟩
  rw [marksEq] at same
  have keySame := same slot.key (by simp)
  refine ⟨sameSize.trans size, keySame.2.trans offset, below, ?_, marksEq⟩
  rw [keySame.1]
  apply kidMarks.congr
  intro id member
  exact same id (by simp at member ⊢; tauto)

section

variable {allocator : DeferBufferAllocator} {layout : Layout NodeId}
  (threads : Threads allocator layout)

include threads

theorem Threads.keys_sublist :
    (keys layout).Sublist (nodes layout) := by
  have marked := threads.slots
  clear threads
  induction layout with
  | nil => exact List.Sublist.slnil
  | cons slot rest ih =>
    rw [keys_cons, nodes_cons]
    have first : [slot.key].Sublist (slot.marks.map Prod.fst) := by
      rw [singleton_sublist]
      exact mem_map.mpr ⟨(slot.key, 0), (marked slot mem_cons_self).key_mark, rfl⟩
    exact
      first.append (ih fun other member =>
          marked other (mem_cons_of_mem _ member))

theorem Threads.keys_distinct :
    (keys layout).Nodup :=
  threads.distinct.sublist threads.keys_sublist

theorem Threads.key_created (member : slot ∈ layout) :
    slot.key < allocator.chunkCount := by
  apply threads.created
  exact threads.keys_sublist.subset (mem_map_of_mem member)

end

variable {layout before after : Layout NodeId}

theorem Threads.slot_unique (threads : Threads allocator layout) {first second : Slot NodeId}
    (firstMember : first ∈ layout) (secondMember : second ∈ layout)
    (sameKey : first.key = second.key) :
    first = second :=
  inj_on_of_nodup_map threads.keys_distinct firstMember secondMember sameKey

/-! ## Primitives -/

variable {left right : NodeId} {chunk fresh : NodeId}

namespace DeferBufferAllocator

section

variable (allocator : DeferBufferAllocator)

@[simp]
theorem modify_mChunks (id other : NodeId) (change : MemNode → MemNode) :
    (allocator.modify id change).mChunks other =
      if other = id then change (allocator.mChunks id)
      else allocator.mChunks other := by
  simp only [modify, Function.update_apply]

@[simp]
theorem modify_mHead (id : NodeId) (change : MemNode → MemNode) :
    (allocator.modify id change).mHead = allocator.mHead :=
  rfl

@[simp]
theorem modify_mTail (id : NodeId) (change : MemNode → MemNode) :
    (allocator.modify id change).mTail = allocator.mTail :=
  rfl

theorem insertAfter_mChunks {pos : NodeId} (apart : pos ≠ chunk)
    (chunkApart : (allocator.mChunks pos).right ≠ some chunk)
    (posApart : (allocator.mChunks pos).right ≠ some pos) (id : NodeId) :
    (allocator.insertAfter chunk (some pos)).mChunks id =
      if id = pos then
        { allocator.mChunks pos with right := some chunk }
      else if id = chunk then
        { allocator.mChunks chunk with
          right := (allocator.mChunks pos).right, left := some pos }
      else if (allocator.mChunks pos).right = some id then
        { allocator.mChunks id with left := some chunk }
      else
        allocator.mChunks id := by
  cases rightEq : (allocator.mChunks pos).right with
  | none =>
    simp only [insertAfter, rightEq, apply_ite mChunks, ite_self, modify_mChunks]
    by_cases isPos : id = pos
    · subst isPos
      simp [apart]
    · by_cases isChunk : id = chunk
      · subst isChunk
        simp [isPos]
      · simp [isPos, isChunk]
  | some right =>
    have rightApart : right ≠ chunk := by
      intro same
      exact chunkApart (same ▸ rightEq)
    have rightPos : right ≠ pos := by
      intro same
      exact posApart (same ▸ rightEq)
    simp only [insertAfter, rightEq, apply_ite mChunks, ite_self, modify_mChunks, Option.some.injEq]
    by_cases isPos : id = pos
    · subst isPos
      simp [apart, rightPos.symm]
    · by_cases isChunk : id = chunk
      · subst isChunk
        simp [isPos, rightApart.symm]
      · by_cases isRight : id = right
        · subst isRight
          simp [isPos, isChunk]
        · simp [isPos, isChunk, isRight, Ne.symm isRight]

theorem insertAfter_none_mChunks {tail : NodeId} (tailEq : allocator.mTail = some tail)
    (apart : tail ≠ chunk) (id : NodeId) :
    (allocator.insertAfter chunk none).mChunks id =
      if id = tail then
        { allocator.mChunks tail with right := some chunk }
      else if id = chunk then
        { allocator.mChunks chunk with left := some tail }
      else
        allocator.mChunks id := by
  simp only [insertAfter, tailEq, modify_mChunks]
  by_cases isTail : id = tail
  · subst isTail
    simp [apart]
  · by_cases isChunk : id = chunk
    · subst isChunk
      simp [isTail]
    · simp [isTail, isChunk]

@[simp]
theorem insertAfter_mHead (chunk pos : NodeId) :
    (allocator.insertAfter chunk (some pos)).mHead = allocator.mHead := by
  simp only [insertAfter]
  cases (allocator.mChunks pos).right <;> split_ifs <;> rfl

theorem insertAfter_mTail (chunk pos : NodeId) :
    (allocator.insertAfter chunk (some pos)).mTail =
      if allocator.mTail = some pos then some chunk
      else allocator.mTail := by
  cases rightEq : (allocator.mChunks pos).right <;>
    simp only [insertAfter, rightEq, apply_ite mTail, modify_mTail]

@[simp]
theorem insertAfter_chunkCount (chunk : NodeId) (pos : Option NodeId) :
    (allocator.insertAfter chunk pos).chunkCount = allocator.chunkCount := by
  cases pos with
  | none =>
    simp only [insertAfter]
    cases allocator.mTail <;> rfl
  | some pos =>
    simp only [insertAfter]
    cases (allocator.mChunks pos).right <;> split_ifs <;> rfl

section

variable (neighbour : (allocator.mChunks right).left = some left) (apart : left ≠ right)

include neighbour apart

theorem fuseToLeft_mChunks (leftApart : (allocator.mChunks right).right ≠ some left)
    (rightApart : (allocator.mChunks right).right ≠ some right) (id : NodeId) :
    (allocator.fuseToLeft left right).2.mChunks id =
      if id = left then
        { allocator.mChunks left with
          size := (allocator.mChunks left).size + (allocator.mChunks right).size
          children := (allocator.mChunks left).children ++ [right]
          right := (allocator.mChunks right).right }
      else if id = right then
        { allocator.mChunks right with
          offset := (allocator.mChunks left).size }
      else if (allocator.mChunks right).right = some id then
        { allocator.mChunks id with left := some left }
      else
        allocator.mChunks id := by
  cases nextEq : (allocator.mChunks right).right with
  | none =>
    simp only [fuseToLeft, eraseNode, modify_mChunks, if_neg apart.symm, if_true, neighbour, nextEq]
    by_cases isLeft : id = left
    · subst isLeft
      simp [apart]
    · by_cases isRight : id = right
      · subst isRight
        simp [isLeft]
      · simp [isLeft, isRight]
  | some next =>
    have nextLeft : next ≠ left := by
      intro same
      exact leftApart (same ▸ nextEq)
    have nextRight : next ≠ right := by
      intro same
      exact rightApart (same ▸ nextEq)
    simp only [fuseToLeft, eraseNode, modify_mChunks, if_neg apart.symm,
      if_true, neighbour, nextEq, Option.some.injEq]
    by_cases isLeft : id = left
    · subst isLeft
      simp [apart, nextLeft.symm]
    · by_cases isRight : id = right
      · subst isRight
        simp [isLeft, nextRight.symm]
      · by_cases isNext : id = next
        · subst isNext
          simp [isLeft, isRight]
        · simp [isLeft, isRight, isNext, Ne.symm isNext]

theorem fuseToLeft_mTail :
    (allocator.fuseToLeft left right).2.mTail =
      if (allocator.mChunks right).right = none then some left
      else allocator.mTail := by
  cases nextEq : (allocator.mChunks right).right <;>
    simp [fuseToLeft, eraseNode, apart.symm, neighbour, nextEq, modify]

@[simp]
theorem fuseToLeft_mHead :
    (allocator.fuseToLeft left right).2.mHead = allocator.mHead := by
  cases nextEq : (allocator.mChunks right).right <;>
    simp [fuseToLeft, eraseNode, apart.symm, neighbour, nextEq, modify]

end

@[simp]
theorem fuseToLeft_chunkCount (left right : NodeId) :
    (allocator.fuseToLeft left right).2.chunkCount =
      allocator.chunkCount := by
  simp only [fuseToLeft, eraseNode]
  split <;> rfl

end

end DeferBufferAllocator

/-! ## Primitives on represented layouts -/

theorem Threads.congr {allocator' : DeferBufferAllocator} (threads : Threads allocator layout)
    (same :
      ∀ id, (allocator'.mChunks id).left = (allocator.mChunks id).left ∧
        (allocator'.mChunks id).right = (allocator.mChunks id).right ∧
        (allocator'.mChunks id).size = (allocator.mChunks id).size ∧
        (allocator'.mChunks id).offset = (allocator.mChunks id).offset ∧
        (allocator'.mChunks id).children = (allocator.mChunks id).children)
    (sameHead : allocator'.mHead = allocator.mHead) (sameTail : allocator'.mTail = allocator.mTail)
    (sameCount : allocator'.chunkCount = allocator.chunkCount) :
    Threads allocator' layout where
  linked := threads.linked.congr (fun id _ => (same id).1) (fun id _ => (same id).2.1)
  head := sameHead.trans threads.head
  tail := sameTail.trans threads.tail
  distinct := threads.distinct
  created := by
    rw [sameCount]
    exact threads.created
  slots := by
    intro slot member
    apply (threads.slots slot member).congr (same slot.key).2.2.1
    intro id _
    exact ⟨(same id).2.2.2.2, (same id).2.2.2.1⟩

variable {before after : Layout NodeId}

section

variable {allocator : DeferBufferAllocator}

theorem Threads.createMemNode (threads : Threads allocator layout) (size : Nat) :
    Threads (allocator.createMemNode size).2 layout := by
  have same :
      ∀ id ∈ nodes layout, (allocator.createMemNode size).2.mChunks id = allocator.mChunks id := by
    intro id member
    exact Function.update_of_ne (Nat.ne_of_lt (threads.created id member)) _ _
  have sameKey :
      ∀ id ∈ keys layout, (allocator.createMemNode size).2.mChunks id = allocator.mChunks id :=
    fun id member => same id (threads.keys_sublist.subset member)
  exact
    { linked :=
        threads.linked.congr (fun id member => by rw [sameKey id member])
          (fun id member => by rw [sameKey id member])
      head := threads.head
      tail := threads.tail
      distinct := threads.distinct
      created := by
        intro id member
        exact Nat.lt_succ_of_lt (threads.created id member)
      slots := by
        intro slot member
        apply (threads.slots slot member).congr
        · rw [sameKey slot.key (mem_map_of_mem member)]
        · intro id mark
          rw [same id (mem_flatMap.mpr ⟨slot, member, mark⟩)]
          exact ⟨rfl, rfl⟩ }

theorem Threads.key_distinct (threads : Threads allocator (before ++ slot :: after)) :
    slot.key ∉ keys before ∧ slot.key ∉ keys after := by
  have distinct := threads.keys_distinct
  rw [keys_append, keys_cons, nodup_append, nodup_cons] at distinct
  constructor
  · intro member
    exact distinct.2.2 _ member slot.key mem_cons_self rfl
  · exact distinct.2.1.1

theorem Threads.mark_unique {slot other : Slot NodeId} {id : NodeId}
    (threads : Threads allocator (before ++ slot :: after)) (elsewhere : other ∈ before ++ after)
    (mark : id ∈ other.marks.map Prod.fst) :
    id ∉ slot.marks.map Prod.fst := by
  have distinct := threads.distinct
  rw [nodes_append, nodes_cons, nodup_append, nodup_append] at distinct
  rcases distinct with ⟨-, ⟨-, -, slotApart⟩, beforeApart⟩
  intro member
  rcases mem_append.mp elsewhere with early | late
  · exact beforeApart id (mem_flatMap.mpr ⟨other, early, mark⟩)
        id (mem_append_left _ member) rfl
  · exact slotApart id member id (mem_flatMap.mpr ⟨other, late, mark⟩) rfl

theorem Threads.right_eq {slot : Slot NodeId}
    (threads : Threads allocator (before ++ slot :: after)) :
    (allocator.mChunks slot.key).right = (keys after).head? := by
  have linked := threads.linked
  rw [keys_append, keys_cons] at linked
  simpa using linked.right_eq

theorem Threads.left_eq {slot : Slot NodeId}
    (threads : Threads allocator (before ++ slot :: after)) :
    (allocator.mChunks slot.key).left = (keys before).getLast? := by
  have linked := threads.linked
  rw [keys_append, keys_cons] at linked
  simpa using linked.left_eq

end

/-- The slot of a node that was just threaded. -/
@[simps]
def bareSlot (key : NodeId) (size : Nat) (free : Bool) : Slot NodeId where
  key := key
  size := size
  free := free
  marks := [(key, 0)]

theorem RepresentsSlot.bare {key : NodeId} (childless : (chunks key).children = [])
    (unmoved : (chunks key).offset = 0) :
    RepresentsSlot chunks (bareSlot key (chunks key).size free) where
  size := rfl
  offset := unmoved
  marks := ⟨[], by
    rw [bareSlot_key, childless]
    exact .nil, rfl⟩

section

variable {allocator : DeferBufferAllocator}

theorem Threads.insertAfter {slot : Slot NodeId}
    (threads : Threads allocator (before ++ slot :: after))
    (unused : fresh ∉ nodes (before ++ slot :: after)) (created : fresh < allocator.chunkCount)
    (childless : (allocator.mChunks fresh).children = [])
    (unmoved : (allocator.mChunks fresh).offset = 0) :
    Threads (allocator.insertAfter fresh (some slot.key)) (before ++ slot ::
        bareSlot fresh (allocator.mChunks fresh).size free :: after) := by
  have unthreaded : ∀ id ∈ keys (before ++ slot :: after), id ≠ fresh := by
    intro id member same
    exact unused (same ▸ threads.keys_sublist.subset member)
  have slotApart : slot.key ≠ fresh := unthreaded _ (by simp)
  have rightEq := threads.right_eq
  have rightFresh : (allocator.mChunks slot.key).right ≠ some fresh := by
    rw [rightEq]
    intro headEq
    exact unthreaded fresh (by simp [mem_of_mem_head? headEq]) rfl
  have rightSlot : (allocator.mChunks slot.key).right ≠ some slot.key := by
    rw [rightEq]
    intro headEq
    exact threads.key_distinct.2 (mem_of_mem_head? headEq)
  have chunksEq := allocator.insertAfter_mChunks slotApart rightFresh rightSlot
  have body :
      ∀ id, ((allocator.insertAfter fresh (some slot.key)).mChunks id).size =
            (allocator.mChunks id).size ∧
          ((allocator.insertAfter fresh (some slot.key)).mChunks id).children =
              (allocator.mChunks id).children ∧
            ((allocator.insertAfter fresh (some slot.key)).mChunks id).offset =
              (allocator.mChunks id).offset := by
    intro id
    rw [chunksEq id]
    split_ifs with isSlot isFresh isNext
    · subst isSlot
      exact ⟨rfl, rfl, rfl⟩
    · subst isFresh
      exact ⟨rfl, rfl, rfl⟩
    · exact ⟨rfl, rfl, rfl⟩
    · exact ⟨rfl, rfl, rfl⟩
  exact
    { linked := by
        have linked := threads.linked
        have distinct := threads.keys_distinct
        rw [keys_append, keys_cons] at linked distinct unthreaded
        rw [keys_append, keys_cons, keys_cons]
        apply linked.insert distinct
        · simp [chunksEq]
        · simp [chunksEq, slotApart.symm]
        · simp [chunksEq, slotApart.symm, rightEq]
        · intro head headEq
          have headMember : head ∈ keys after := mem_of_mem_head? headEq
          have headSlot : head ≠ slot.key := by
            intro same
            exact threads.key_distinct.2 (same ▸ headMember)
          have headFresh := unthreaded head (by simp [headMember])
          simp [chunksEq, headSlot, headFresh, rightEq, headEq]
        · intro other member notSlot
          have notFresh := unthreaded other member
          simp only [chunksEq, if_neg notSlot, if_neg notFresh]
          split_ifs <;> rfl
        · intro other member notHead
          have notFresh := unthreaded other member
          simp only [chunksEq, if_neg notFresh, rightEq, if_neg notHead]
          split_ifs with isSlot
          · rw [isSlot]
          · rfl
      head := by
        rw [insertAfter_mHead, threads.head]
        simp
      tail := by
        rw [insertAfter_mTail, threads.tail]
        cases after with
        | nil => simp [bareSlot]
        | cons first rest =>
          have lastKey : (keys (before ++ slot :: first :: rest)).getLast? ≠
                some slot.key := by
            intro lastEq
            apply threads.key_distinct.2
            apply mem_of_getLast?
            simpa [getLast?_append, getLast?_cons] using lastEq
          rw [if_neg lastKey]
          simp [getLast?_append, getLast?_cons]
      distinct := by
        have distinct := threads.distinct
        rw [nodes_append, nodes_cons] at distinct unused
        rw [nodes_append, nodes_cons, nodes_cons]
        have permuted :
            (nodes before ++ slot.marks.map Prod.fst ++
                fresh :: nodes after).Perm
              (fresh :: (nodes before ++ slot.marks.map Prod.fst ++ nodes after)) :=
          perm_middle
        rw [append_assoc, append_assoc] at permuted
        exact permuted.nodup_iff.mpr (nodup_cons.mpr ⟨unused, distinct⟩)
      created := by
        intro id member
        rw [insertAfter_chunkCount]
        by_cases isFresh : id = fresh
        · exact isFresh ▸ created
        · apply threads.created
          simp [bareSlot, isFresh] at member ⊢
          exact member
      slots := by
        intro other member
        have old :
            other ∈ before ++ slot :: after ∨ other =
                bareSlot fresh (allocator.mChunks fresh).size free := by
          simp at member ⊢
          tauto
        rcases old with oldMember | isNew
        · exact (threads.slots other oldMember).congr (body other.key).1 fun id _ => (body id).2
        · subst isNew
          rw [← (body fresh).1]
          apply RepresentsSlot.bare
          · rw [(body fresh).2.1, childless]
          · rw [(body fresh).2.2, unmoved] }

theorem Threads.append (threads : Threads allocator layout) (unused : fresh ∉ nodes layout)
    (created : fresh < allocator.chunkCount) (childless : (allocator.mChunks fresh).children = [])
    (unmoved : (allocator.mChunks fresh).offset = 0)
    (unlinked : (allocator.mChunks fresh).left = none ∧ (allocator.mChunks fresh).right = none) :
    Threads (allocator.insertAfter fresh none)
      (layout ++ [bareSlot fresh (allocator.mChunks fresh).size free]) := by
  rcases eq_nil_or_concat layout with rfl | ⟨before, slot, rfl⟩
  · have tailEq : allocator.mTail = none := threads.tail
    simp only [DeferBufferAllocator.insertAfter, tailEq]
    exact
      { linked := ⟨unlinked.1, unlinked.2, trivial⟩
        head := rfl
        tail := rfl
        distinct := by simp
        created := by simpa using created
        slots := by
          intro slot member
          rw [nil_append, mem_singleton] at member
          subst member
          exact .bare childless unmoved }
  · rw [concat_eq_append] at threads unused ⊢
    have tailEq : allocator.mTail = some slot.key := by
      rw [threads.tail]
      simp
    have rightEq : (allocator.mChunks slot.key).right = none := by
      rw [threads.right_eq]
      rfl
    have slotApart : slot.key ≠ fresh := by
      intro same
      apply unused
      rw [← same]
      exact threads.keys_sublist.subset (by simp)
    have threaded : Threads (allocator.insertAfter fresh (some slot.key)) (before ++ slot ::
            [bareSlot fresh (allocator.mChunks fresh).size free]) :=
      threads.insertAfter unused created childless unmoved
    rw [append_assoc]
    apply threaded.congr
    · intro id
      rw [allocator.insertAfter_mChunks slotApart (by simp [rightEq]) (by simp [rightEq]),
        allocator.insertAfter_none_mChunks tailEq slotApart]
      by_cases isSlot : id = slot.key
      · subst isSlot
        simp
      · by_cases isFresh : id = fresh
        · subst isFresh
          simp [isSlot, unlinked.2, rightEq]
        · simp [isSlot, isFresh, rightEq]
    · rw [insertAfter_mHead]
      simp only [DeferBufferAllocator.insertAfter, tailEq]
      rfl
    · rw [insertAfter_mTail, if_pos tailEq]
      simp only [DeferBufferAllocator.insertAfter, tailEq]
    · simp only [insertAfter_chunkCount]

theorem Threads.resize (threads : Threads allocator (before ++ slot :: after))
    (size : Nat) (free : Bool) :
    Threads (allocator.modify slot.key fun node => { node with size := size })
      (before ++ { slot with size := size, free := free } :: after) where
  linked := by
    have linked := threads.linked
    rw [keys_append, keys_cons] at linked ⊢
    apply linked.congr
    · intro id _
      simp only [modify_mChunks]
      split_ifs with isSlot
      · rw [isSlot]
      · rfl
    · intro id _
      simp only [modify_mChunks]
      split_ifs with isSlot
      · rw [isSlot]
      · rfl
  head := by simpa using threads.head
  tail := by simpa using threads.tail
  distinct := by simpa using threads.distinct
  created := by
    intro id member
    exact threads.created id (by simpa using member)
  slots := by
    have apart := threads.key_distinct
    have body : ∀ id, ((allocator.modify slot.key
              fun node => { node with size := size }).mChunks id).children =
              (allocator.mChunks id).children ∧
            ((allocator.modify slot.key
              fun node => { node with size := size }).mChunks id).offset =
              (allocator.mChunks id).offset := by
      intro id
      rw [modify_mChunks]
      split_ifs with isSlot
      · rw [isSlot]
        exact ⟨rfl, rfl⟩
      · exact ⟨rfl, rfl⟩
    intro other member
    rcases mem_append.mp member with early | late
    · apply (threads.slots other (by simp [early])).congr
      · have notSlot : other.key ≠ slot.key := by
          intro same
          exact apart.1 (same ▸ mem_map_of_mem early)
        simp [notSlot]
      · intro id _
        exact body id
    · rcases mem_cons.mp late with rfl | later
      · have old := threads.slots slot (by simp)
        rcases old.marks with ⟨below, kidMarks, marksEq⟩
        refine ⟨by simp, ?_, below, ?_, marksEq⟩
        · rw [(body slot.key).2, old.offset]
        · rw [(body slot.key).1]
          exact kidMarks.congr fun id _ => body id
      · apply (threads.slots other (by simp [later])).congr
        · have notSlot : other.key ≠ slot.key := by
            intro same
            exact apart.2 (same ▸ mem_map_of_mem later)
          simp [notSlot]
        · intro id _
          exact body id

end

/-- The slot that two neighbours are fused into. -/
@[simps]
def fusedSlot (left right : Slot NodeId) (free : Bool) : Slot NodeId where
  key := left.key
  size := left.size + right.size
  free := free
  marks := left.marks ++ shiftMarks left.size right.marks

theorem RepresentsSlot.fused {left right : Slot NodeId} (leftSlot : RepresentsSlot chunks left)
    (rightSlot : RepresentsSlot chunks right)
    (distinct : (left.marks.map Prod.fst ++ right.marks.map Prod.fst).Nodup)
    (leftSize : (chunks' left.key).size = (chunks left.key).size + (chunks right.key).size)
    (leftOffset : (chunks' left.key).offset = (chunks left.key).offset)
    (leftChildren : (chunks' left.key).children = (chunks left.key).children ++ [right.key])
    (rightOffset : (chunks' right.key).offset = (chunks left.key).size)
    (rightChildren : (chunks' right.key).children = (chunks right.key).children)
    (untouched :
      ∀ id, id ≠ left.key → id ≠ right.key → (chunks' id).children = (chunks id).children ∧
          (chunks' id).offset = (chunks id).offset) :
    RepresentsSlot chunks' (fusedSlot left right free) := by
  rcases leftSlot.marks with ⟨leftBelow, leftKids, leftMarks⟩
  rcases rightSlot.marks with ⟨rightBelow, rightKids, rightMarks⟩
  rw [leftMarks, rightMarks, map_cons, map_cons, cons_append, nodup_cons, nodup_append,
    nodup_cons] at distinct
  rcases distinct with
    ⟨leftFresh, -, ⟨rightFresh, -⟩, apart⟩
  refine ⟨by rw [fusedSlot_key, fusedSlot_size, leftSize, leftSlot.size, rightSlot.size],
      leftOffset.trans leftSlot.offset,
      leftBelow ++ shiftMarks left.size ((right.key, 0) :: rightBelow),
      ?_, by simp [leftMarks, rightMarks]⟩
  rw [fusedSlot_key, leftChildren]
  apply KidMarks.append
  · apply leftKids.congr
    intro id member
    apply untouched id
    · intro same
      exact leftFresh (mem_append_left _ (same ▸ member))
    · exact apart id member right.key mem_cons_self
  · have single : KidMarks chunks' [right.key] (shiftMarks (chunks' right.key).offset
            ((right.key, 0) :: rightBelow) ++ []) := by
      refine .cons ?_ .nil
      rw [rightChildren]
      apply rightKids.congr
      intro id member
      apply untouched id
      · intro same
        apply leftFresh
        rw [← same]
        exact mem_append_right _ (mem_cons_of_mem _ member)
      · intro same
        exact rightFresh (same ▸ member)
    rw [rightOffset, leftSlot.size, append_nil] at single
    exact single

theorem Threads.fuse {left right : Slot NodeId}
    (threads : Threads allocator (before ++ left :: right :: after)) :
    Threads (allocator.fuseToLeft left.key right.key).2
      (before ++ fusedSlot left right free :: after) := by
  have rightThreads : Threads allocator ((before ++ [left]) ++ right :: after) := by
    simpa using threads
  have neighbour : (allocator.mChunks right.key).left = some left.key := by
    rw [rightThreads.left_eq]
    simp
  have nextEq : (allocator.mChunks right.key).right = (keys after).head? := rightThreads.right_eq
  have leftApart := threads.key_distinct
  have rightApart := rightThreads.key_distinct
  have apart : left.key ≠ right.key := by
    intro same
    exact leftApart.2 (by simp [same])
  have nextLeft : (allocator.mChunks right.key).right ≠ some left.key := by
    rw [nextEq]
    intro headEq
    exact leftApart.2 (by simp [mem_of_mem_head? headEq])
  have nextRight : (allocator.mChunks right.key).right ≠ some right.key := by
    rw [nextEq]
    intro headEq
    exact rightApart.2 (mem_of_mem_head? headEq)
  have chunksEq := allocator.fuseToLeft_mChunks neighbour apart nextLeft nextRight
  have leftSlot := threads.slots left (by simp)
  have rightSlot := threads.slots right (by simp)
  have untouched :
      ∀ id, id ≠ left.key → id ≠ right.key →
        ((allocator.fuseToLeft left.key right.key).2.mChunks id).children =
            (allocator.mChunks id).children ∧
          ((allocator.fuseToLeft left.key right.key).2.mChunks id).offset =
              (allocator.mChunks id).offset ∧
            ((allocator.fuseToLeft left.key right.key).2.mChunks id).size =
              (allocator.mChunks id).size := by
    intro id notLeft notRight
    rw [chunksEq, if_neg notLeft, if_neg notRight]
    split_ifs <;> exact ⟨rfl, rfl, rfl⟩
  have distinct := threads.distinct
  exact
    { linked := by
        have linked := threads.linked
        have keysDistinct := threads.keys_distinct
        rw [keys_append, keys_cons, keys_cons] at linked keysDistinct
        rw [keys_append, keys_cons]
        apply linked.remove keysDistinct
        · simp [chunksEq, nextEq]
        · intro head headEq
          have headMember : head ∈ keys after := mem_of_mem_head? headEq
          have headLeft : head ≠ left.key := by
            intro same
            exact leftApart.2 (by simp [← same, headMember])
          have headRight : head ≠ right.key := by
            intro same
            exact rightApart.2 (same ▸ headMember)
          simp [chunksEq, headLeft, headRight, nextEq, headEq]
        · intro other member notLeft
          have notRight : other ≠ right.key := by
            intro same
            subst same
            rcases mem_append.mp member with early | late
            · exact rightApart.1 (by simp [early])
            · rcases mem_cons.mp late with isLeft | later
              · exact notLeft isLeft
              · exact rightApart.2 later
          rw [chunksEq, if_neg notLeft, if_neg notRight]
          split_ifs <;> rfl
        · intro other member notHead
          rw [chunksEq, nextEq, if_neg notHead]
          split_ifs with isLeft isRight
          · rw [isLeft]
          · rw [isRight]
          · rfl
      head := by
        rw [allocator.fuseToLeft_mHead neighbour apart, threads.head]
        simp
      tail := by
        rw [allocator.fuseToLeft_mTail neighbour apart, nextEq, threads.tail]
        cases after with
        | nil => simp
        | cons first rest =>
          simp [getLast?_append, getLast?_cons]
      distinct := by
        simpa using distinct
      created := by
        intro id member
        rw [fuseToLeft_chunkCount]
        apply threads.created
        simpa using member
      slots := by
        have leftKey : left.key ∈ left.marks.map Prod.fst := mem_map_of_mem leftSlot.key_mark
        have rightKey : right.key ∈ right.marks.map Prod.fst := mem_map_of_mem rightSlot.key_mark
        have outside : ∀ other ∈ before ++ after, RepresentsSlot
                (allocator.fuseToLeft left.key right.key).2.mChunks other := by
          intro other member
          have represents := threads.slots other (by simp at member ⊢; tauto)
          have markOutside : ∀ id ∈ other.marks.map Prod.fst, id ≠ left.key ∧ id ≠ right.key := by
            intro id mark
            constructor
            · intro same
              exact threads.mark_unique (by simp at member ⊢; tauto) mark
                  (same ▸ leftKey)
            · intro same
              exact rightThreads.mark_unique (by simp at member ⊢; tauto) mark
                  (same ▸ rightKey)
          have keyOutside := markOutside other.key (mem_map_of_mem represents.key_mark)
          apply represents.congr
          · exact (untouched other.key keyOutside.1 keyOutside.2).2.2
          · intro id mark
            have apartId := markOutside id mark
            have same := untouched id apartId.1 apartId.2
            exact ⟨same.1, same.2.1⟩
        intro other member
        rcases mem_append.mp member with early | late
        · exact outside other (mem_append_left _ early)
        · rcases mem_cons.mp late with rfl | later
          · apply RepresentsSlot.fused leftSlot rightSlot
            · rw [nodes_append, nodes_cons, nodes_cons] at distinct
              have joined := (nodup_append.mp distinct).2.1
              rw [← append_assoc] at joined
              exact (nodup_append.mp joined).1
            · simp [chunksEq]
            · simp [chunksEq]
            · simp [chunksEq]
            · simp [chunksEq, apart.symm]
            · simp [chunksEq, apart.symm]
            · intro id notLeft notRight
              have same := untouched id notLeft notRight
              exact ⟨same.1, same.2.1⟩
          · exact outside other (mem_append_right _ later) }

end Mnn.Core.BufferAllocator
