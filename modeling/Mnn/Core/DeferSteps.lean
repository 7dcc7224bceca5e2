import Mnn.Core.DeferPlan

/-!
# What the calls of the deferred allocator do to the plan

`alloc` and `freeNode` take one slot out of the bookkeeping, change it and its
neighbours and put it back.  `Opened` describes the state in between: every
slot but one is as `Represents` says.  Each statement of the two functions is
one lemma from an open state to an open state, and the two functions are
chains of these lemmas.
-/

namespace Mnn.Core.BufferAllocator

open Mnn.Foundation.LinearLayout
open List
open DeferBufferAllocator

/-- The nodes handed out, each with the size of its slot. -/
def used (layout : Layout NodeId) : List (NodeId × Nat) :=
  (layout.filter fun slot => !slot.free).map fun slot => (slot.key, slot.size)

@[simp]
theorem used_append (left right : Layout NodeId) :
    used (left ++ right) = used left ++ used right := by
  simp [used]

theorem used_cons (slot : Slot NodeId) (layout : Layout NodeId) :
    used (slot :: layout) =
      if slot.free then used layout
      else (slot.key, slot.size) :: used layout := by
  cases free : slot.free <;> simp [used, free]

/-! ## Fields which the primitives leave alone -/

namespace DeferBufferAllocator

section

variable (allocator : DeferBufferAllocator)

include allocator

@[simp]
theorem modify_mFreeList (id : NodeId) (change : MemNode → MemNode) :
    (allocator.modify id change).mFreeList = allocator.mFreeList :=
  rfl

theorem createMemNode_fresh (size : Nat) :
    (allocator.createMemNode size).2.mChunks allocator.chunkCount = { size := size } :=
  Function.update_self ..

theorem createMemNode_old (size : Nat) {id : NodeId} (old : id ≠ allocator.chunkCount) :
    (allocator.createMemNode size).2.mChunks id = allocator.mChunks id :=
  Function.update_of_ne old _ _

theorem insertAfter_frame (chunk : NodeId) (pos : Option NodeId) :
    (∀ id, ((allocator.insertAfter chunk pos).mChunks id).usage = (allocator.mChunks id).usage) ∧
      (allocator.insertAfter chunk pos).mFreeList = allocator.mFreeList ∧
      (allocator.insertAfter chunk pos).mTotalSize = allocator.mTotalSize := by
  cases pos with
  | none =>
    simp only [insertAfter]
    cases allocator.mTail with
    | none => exact ⟨fun _ => rfl, rfl, rfl⟩
    | some tail =>
      refine ⟨?_, rfl, rfl⟩
      intro id
      simp only [modify_mChunks]
      split_ifs <;> simp_all
  | some pos =>
    simp only [insertAfter]
    refine ⟨?_, ?_, ?_⟩
    · intro id
      cases (allocator.mChunks pos).right <;>
        simp only [apply_ite mChunks, ite_self, modify_mChunks] <;>
        split_ifs <;> simp_all
    · cases (allocator.mChunks pos).right <;> split_ifs <;> rfl
    · cases (allocator.mChunks pos).right <;> split_ifs <;> rfl

/-- A fusion touches neither the marks of use nor the free list. -/
theorem fuseToLeft_frame (left right : NodeId) :
    (∀ id, ((allocator.fuseToLeft left right).2.mChunks id).usage = (allocator.mChunks id).usage) ∧
      (allocator.fuseToLeft left right).2.mFreeList = allocator.mFreeList ∧
      (allocator.fuseToLeft left right).2.mTotalSize =
        allocator.mTotalSize := by
  refine ⟨?_, ?_, ?_⟩
  · intro id
    simp only [fuseToLeft, eraseNode]
    split <;> simp only [modify_mChunks] <;> split_ifs <;> simp_all
  · simp only [fuseToLeft, eraseNode]
    split <;> rfl
  · simp only [fuseToLeft, eraseNode]
    split <;> rfl

end

/-- What a barrier consists of. -/
def barrier (allocator : DeferBufferAllocator) : Bool × List MemChunk :=
  (allocator.mBarrrier, allocator.mBarrrierFreeChunks)

section

variable (allocator : DeferBufferAllocator)

include allocator

@[simp]
theorem insertAfter_barrier (chunk : NodeId) (pos : Option NodeId) :
    (allocator.insertAfter chunk pos).barrier = allocator.barrier := by
  cases pos with
  | none =>
    simp only [insertAfter]
    cases allocator.mTail <;> rfl
  | some pos =>
    simp only [insertAfter]
    cases (allocator.mChunks pos).right <;> split_ifs <;> rfl

@[simp]
theorem fuseToLeft_barrier (left right : NodeId) :
    (allocator.fuseToLeft left right).2.barrier = allocator.barrier := by
  simp only [fuseToLeft, eraseNode]
  split <;> rfl

theorem alloc_barrier (size : Nat) (separate : Bool) (align : Nat) :
    (allocator.alloc size separate align).2.barrier = allocator.barrier := by
  have rest :
      ∀ (marked : DeferBufferAllocator) select rest,
        (marked.splitRest select rest).barrier = marked.barrier := by
    intro marked select rest
    show (insertAfter _ _ _).barrier = _
    rw [insertAfter_barrier]
    rfl
  simp only [alloc]
  split
  · simp only [reuse]
    show (ite _ _ _ : DeferBufferAllocator).barrier = _
    split_ifs
    · rw [rest]
      rfl
    · rfl
  · rw [insertAfter_barrier]
    rfl

theorem freeNode_barrier (node : NodeId) :
    (allocator.freeNode node).barrier = allocator.barrier := by
  have left :
      ∀ (allocator : DeferBufferAllocator) node left,
        (allocator.fuseFreeLeft node left).2.barrier = allocator.barrier := by
    intro allocator node left
    cases left with
    | none => rfl
    | some left =>
      simp only [fuseFreeLeft]
      split_ifs
      · rfl
      · rw [fuseToLeft_barrier]
        rfl
  have right :
      ∀ (allocator : DeferBufferAllocator) node right,
        (allocator.fuseFreeRight node right).2.barrier =
          allocator.barrier := by
    intro allocator node right
    cases right with
    | none => rfl
    | some right =>
      simp only [fuseFreeRight]
      split_ifs
      · rfl
      · rw [fuseToLeft_barrier]
        rfl
  show (fuseFreeRight _ _ _).2.barrier = _
  rw [right]
  exact left allocator node _

theorem mem_insertFree (chunk id : NodeId) :
    id ∈ (allocator.insertFree chunk).mFreeList ↔ id = chunk ∨ id ∈ allocator.mFreeList := by
  simp only [insertFree, mem_append, mem_cons]
  conv_rhs =>
    rw [← takeWhile_append_dropWhile (p := fun id =>
        decide ((allocator.mChunks id).size ≤ (allocator.mChunks chunk).size))
      (l := allocator.mFreeList), mem_append]
  tauto

end

theorem nodup_insertFree {allocator : DeferBufferAllocator} {chunk : NodeId}
    (distinct : allocator.mFreeList.Nodup) (absent : chunk ∉ allocator.mFreeList) :
    (allocator.insertFree chunk).mFreeList.Nodup := by
  simp only [insertFree]
  refine perm_middle.nodup_iff.mpr ?_
  rw [takeWhile_append_dropWhile]
  exact nodup_cons.mpr ⟨absent, distinct⟩

end DeferBufferAllocator

variable {slot other : Slot NodeId} {before after layout : Layout NodeId}

theorem Threads.other_key {allocator : DeferBufferAllocator}
    (threads : Threads allocator (before ++ slot :: after)) (member : other ∈ before ++ after) :
    other.key ≠ slot.key := by
  intro same
  rcases mem_append.mp member with early | late
  · exact threads.key_distinct.1 (same ▸ mem_map_of_mem early)
  · exact threads.key_distinct.2 (same ▸ mem_map_of_mem late)

/-! ## One open slot -/

/--
Everything outside one slot is as the layout says.  Of the slot itself only
the threads are known: neither its mark of use nor the free list need agree.
-/
structure Opened
    (allocator : DeferBufferAllocator)
    (before : Layout NodeId) (slot : Slot NodeId)
    (after : Layout NodeId) : Prop where
  threads : Threads allocator (before ++ slot :: after)
  usage : ∀ other ∈ before ++ after, (allocator.mChunks other.key).usage = !other.free
  freeList :
    ∀ id, id ∈ allocator.mFreeList ↔ ∃ other ∈ before ++ after, other.key = id ∧ other.free = true
  freeDistinct : allocator.mFreeList.Nodup
  coalesced : Coalesced before ∧ Coalesced after
  unplanned : allocator.mTotalSize = 0

/-- A slot keeps neighbours apart when none of them is free. -/
def Sealed (before after : Layout NodeId) : Prop :=
  (∀ left, before.getLast? = some left → left.free = false) ∧
    ∀ right, after.head? = some right → right.free = false

section

variable {before after : Layout NodeId} {slot : Slot NodeId}

theorem Coalesced.open (coalesced : Coalesced (before ++ slot :: after)) :
    Coalesced before ∧ Coalesced after := by
  rcases isChain_append.mp coalesced with ⟨front, back, -⟩
  exact ⟨front, back.tail⟩

theorem Coalesced.sealed (coalesced : Coalesced (before ++ slot :: after))
    (free : slot.free = true) : Sealed before after := by
  rcases isChain_append.mp coalesced with ⟨-, back, join⟩
  constructor
  · intro left lastEq
    have apart := join left lastEq slot rfl
    rw [free] at apart
    simpa using apart
  · intro right headEq
    have apart := back.rel_head? headEq
    rw [free] at apart
    simpa using apart

theorem Coalesced.close (front : Coalesced before) (back : Coalesced after)
    (apart : slot.free = true → Sealed before after) :
    Coalesced (before ++ slot :: after) := by
  refine isChain_append.mpr ⟨front, ?_, ?_⟩
  · refine isChain_cons.mpr ⟨?_, back⟩
    intro right headEq both
    have notFree := (apart both.1).2 right headEq
    rw [both.2] at notFree
    cases notFree
  · intro left lastEq other isSlot both
    cases isSlot
    have notFree := (apart both.2).1 left lastEq
    rw [both.1] at notFree
    cases notFree

end

section

variable {allocator : DeferBufferAllocator} {before after : Layout NodeId}

theorem mem_of_mem_around (member : other ∈ before ++ after) :
    other ∈ before ++ slot :: after := by
  simp only [mem_append, mem_cons] at member ⊢
  tauto

theorem mem_erase_free {free : List NodeId} (distinct : free.Nodup)
    (isFree : ∀ id, id ∈ free ↔ ∃ other ∈ before ++ slot :: after, other.key = id ∧ other.free = true)
    (notBefore : slot.key ∉ keys before) (notAfter : slot.key ∉ keys after) (id : NodeId) :
    id ∈ free.erase slot.key ↔ ∃ other ∈ before ++ after, other.key = id ∧ other.free = true := by
  rw [distinct.mem_erase_iff, isFree]
  constructor
  · rintro ⟨notSlot, other, member, rfl, otherFree⟩
    refine ⟨other, ?_, rfl, otherFree⟩
    simp only [mem_append, mem_cons] at member ⊢
    rcases member with early | rfl | late
    · exact Or.inl early
    · exact absurd rfl notSlot
    · exact Or.inr late
  · rintro ⟨other, member, rfl, otherFree⟩
    refine ⟨?_, other, mem_of_mem_around member, rfl, otherFree⟩
    intro same
    rcases mem_append.mp member with early | late
    · exact notBefore (same ▸ mem_map_of_mem early)
    · exact notAfter (same ▸ mem_map_of_mem late)

theorem Represents.opened (represents : Represents allocator (before ++ slot :: after)) :
    Opened (allocator.eraseFree slot.key) before slot after where
  threads := represents.threads.congr (fun _ => ⟨rfl, rfl, rfl, rfl, rfl⟩) rfl rfl rfl
  usage := fun other member => represents.usage other (mem_of_mem_around member)
  freeList := mem_erase_free represents.freeDistinct represents.freeList
    represents.threads.key_distinct.1 represents.threads.key_distinct.2
  freeDistinct := represents.freeDistinct.erase _
  coalesced := represents.coalesced.open
  unplanned := represents.unplanned

theorem Represents.eraseFree_used (represents : Represents allocator (before ++ slot :: after))
    (inUse : slot.free = false) :
    allocator.eraseFree slot.key = allocator := by
  have absent : slot.key ∉ allocator.mFreeList := by
    rw [represents.freeList]
    rintro ⟨other, member, sameKey, free⟩
    rw [represents.threads.slot_unique member (by simp) sameKey, inUse] at free
    cases free
  rw [eraseFree, erase_of_not_mem absent]

theorem Opened.closeUsed (opened : Opened allocator before slot after)
    (usage : (allocator.mChunks slot.key).usage = true) (inUse : slot.free = false) :
    Represents allocator (before ++ slot :: after) where
  threads := opened.threads
  usage := by
    intro other member
    simp only [mem_append, mem_cons] at member
    rcases member with early | rfl | late
    · exact opened.usage other (mem_append_left _ early)
    · rw [usage, inUse]
      rfl
    · exact opened.usage other (mem_append_right _ late)
  freeList := by
    intro id
    rw [opened.freeList]
    constructor
    · rintro ⟨other, member, sameKey, free⟩
      refine ⟨other, ?_, sameKey, free⟩
      simp only [mem_append, mem_cons] at member ⊢
      tauto
    · rintro ⟨other, member, sameKey, free⟩
      refine ⟨other, ?_, sameKey, free⟩
      simp only [mem_append, mem_cons] at member ⊢
      rcases member with early | rfl | late
      · exact Or.inl early
      · rw [inUse] at free
        cases free
      · exact Or.inr late
  freeDistinct := opened.freeDistinct
  coalesced := by
    apply Coalesced.close opened.coalesced.1 opened.coalesced.2
    intro free
    rw [inUse] at free
    cases free
  unplanned := opened.unplanned

theorem Opened.closeFree (opened : Opened allocator before slot after) (free : slot.free = true)
    (apart : Sealed before after) :
    Represents ((allocator.modify slot.key fun memNode =>
        { memNode with usage := false }).insertFree slot.key)
      (before ++ slot :: after) := by
  have keyApart := opened.threads.key_distinct
  have body : ∀ id, ((allocator.modify slot.key fun memNode =>
          { memNode with usage := false }).mChunks id) =
          { allocator.mChunks id with
            usage :=
              if id = slot.key then false
              else (allocator.mChunks id).usage } := by
    intro id
    rw [modify_mChunks]
    split_ifs with isSlot
    · rw [isSlot]
    · rfl
  have notListed : slot.key ∉ allocator.mFreeList := by
    rw [opened.freeList]
    rintro ⟨other, member, same, -⟩
    rcases mem_append.mp member with early | late
    · exact keyApart.1 (same ▸ mem_map_of_mem early)
    · exact keyApart.2 (same ▸ mem_map_of_mem late)
  exact
    { threads := by
        refine opened.threads.congr ?_ rfl rfl rfl
        intro id
        have same := body id
        simp only [insertFree, same, and_self]
      usage := by
        intro other member
        simp only [insertFree, body]
        simp only [mem_append, mem_cons] at member
        rcases member with early | rfl | late
        · rw [if_neg]
          · exact opened.usage other (mem_append_left _ early)
          · intro same
            exact keyApart.1 (same ▸ mem_map_of_mem early)
        · rw [if_pos rfl, free]
          rfl
        · rw [if_neg]
          · exact opened.usage other (mem_append_right _ late)
          · intro same
            exact keyApart.2 (same ▸ mem_map_of_mem late)
      freeList := by
        intro id
        rw [mem_insertFree,
          modify_mFreeList, opened.freeList]
        constructor
        · rintro (rfl | ⟨other, member, sameKey, otherFree⟩)
          · exact ⟨slot, by simp, rfl, free⟩
          · refine ⟨other, ?_, sameKey, otherFree⟩
            simp only [mem_append, mem_cons] at member ⊢
            tauto
        · rintro ⟨other, member, sameKey, otherFree⟩
          simp only [mem_append, mem_cons] at member
          rcases member with early | rfl | late
          · exact Or.inr ⟨other, mem_append_left _ early, sameKey, otherFree⟩
          · exact Or.inl sameKey.symm
          · exact Or.inr ⟨other, mem_append_right _ late, sameKey, otherFree⟩
      freeDistinct := nodup_insertFree opened.freeDistinct notListed
      coalesced := Coalesced.close opened.coalesced.1 opened.coalesced.2 fun _ => apart
      unplanned := opened.unplanned }

theorem Opened.fuseLeft {left : Slot NodeId}
    (opened : Opened allocator (before ++ [left]) slot after) (free : Bool) :
    Opened ((allocator.eraseFree left.key).fuseToLeft left.key slot.key).2
      before (fusedSlot left slot free) after := by
  have frame := (allocator.eraseFree left.key).fuseToLeft_frame left.key slot.key
  have threads : Threads allocator (before ++ left :: slot :: after) := by
    simpa using opened.threads
  have keyApart := threads.key_distinct
  rw [keys_cons] at keyApart
  exact
    { threads :=
        Threads.fuse (threads.congr (fun _ => ⟨rfl, rfl, rfl, rfl, rfl⟩) rfl rfl rfl)
      usage := by
        intro other member
        rw [frame.1]
        exact opened.usage other (append_cons .. ▸ mem_of_mem_around member)
      freeList := by
        rw [frame.2.1]
        exact mem_erase_free opened.freeDistinct (append_cons .. ▸ opened.freeList) keyApart.1
          fun member => keyApart.2 (mem_cons_of_mem _ member)
      freeDistinct := by
        rw [frame.2.1]
        exact opened.freeDistinct.erase _
      coalesced := ⟨(isChain_append.mp opened.coalesced.1).1, opened.coalesced.2⟩
      unplanned := frame.2.2.trans opened.unplanned }

theorem Opened.fuseRight {right : Slot NodeId}
    (opened : Opened allocator before slot (right :: after)) (free : Bool) :
    Opened ((allocator.eraseFree right.key).fuseToLeft slot.key right.key).2
      before (fusedSlot slot right free) after := by
  have frame := (allocator.eraseFree right.key).fuseToLeft_frame slot.key right.key
  have threads : Threads allocator ((before ++ [slot]) ++ right :: after) := by
    simpa using opened.threads
  have keyApart := threads.key_distinct
  rw [keys_append] at keyApart
  exact
    { threads :=
        Threads.fuse (opened.threads.congr (fun _ => ⟨rfl, rfl, rfl, rfl, rfl⟩)
            rfl rfl rfl)
      usage := by
        intro other member
        rw [frame.1]
        exact opened.usage other (mem_of_mem_around member)
      freeList := by
        rw [frame.2.1]
        exact mem_erase_free opened.freeDistinct opened.freeList
          (fun member => keyApart.1 (mem_append_left _ member)) keyApart.2
      freeDistinct := by
        rw [frame.2.1]
        exact opened.freeDistinct.erase _
      coalesced := ⟨opened.coalesced.1, opened.coalesced.2.tail⟩
      unplanned := frame.2.2.trans opened.unplanned }

section

variable {slot : Slot NodeId} (opened : Opened allocator before slot after)

include opened

theorem Opened.relabel (free : Bool) :
    Opened allocator before { slot with free := free } after := by
  have threads := opened.threads
  have sameKeys :
      keys (before ++ { slot with free := free } :: after) = keys (before ++ slot :: after) := by
    simp
  have sameNodes :
      nodes (before ++ { slot with free := free } :: after) = nodes (before ++ slot :: after) := by
    simp
  exact
    { threads :=
        { linked := sameKeys ▸ threads.linked
          head := sameKeys ▸ threads.head
          tail := sameKeys ▸ threads.tail
          distinct := sameNodes ▸ threads.distinct
          created := sameNodes ▸ threads.created
          slots := by
            intro other member
            simp only [mem_append, mem_cons] at member
            rcases member with early | rfl | late
            · exact threads.slots other (by simp [early])
            · have represents := threads.slots slot (by simp)
              exact ⟨represents.size, represents.offset, represents.marks⟩
            · exact threads.slots other (by simp [late]) }
      usage := opened.usage
      freeList := opened.freeList
      freeDistinct := opened.freeDistinct
      coalesced := opened.coalesced
      unplanned := opened.unplanned }

/-- After the left fusion the slot before the open one is in use. -/
theorem Opened.fuseFreeLeft :
    ∃ before' slot', (allocator.fuseFreeLeft slot.key (keys before).getLast?).1 = slot'.key ∧
        Opened (allocator.fuseFreeLeft slot.key (keys before).getLast?).2 before' slot' after ∧
        Still (before ++ slot :: after) (before' ++ slot' :: after) ∧
        used before' = used before ∧
        ∀ left, before'.getLast? = some left → left.free = false := by
  have unchanged : Still (before ++ slot :: after) (before ++ slot :: after) := Still.refl _
  rcases eq_nil_or_concat before with rfl | ⟨front, left, rfl⟩
  · refine ⟨[], slot, rfl, opened, unchanged, rfl, ?_⟩
    intro left lastEq
    cases lastEq
  · rw [concat_eq_append] at opened unchanged ⊢
    have lastEq : (keys (front ++ [left])).getLast? = some left.key := by
      simp
    have usage := opened.usage left (by simp)
    rw [lastEq]
    cases free : left.free with
    | false =>
      rw [free] at usage
      simp only [fuseFreeLeft, usage, Bool.not_false, if_true]
      refine ⟨front ++ [left], slot, rfl, opened, unchanged, rfl, ?_⟩
      intro other otherEq
      rw [getLast?_concat, Option.some.injEq] at otherEq
      rw [← otherEq, free]
    | true =>
      rw [free] at usage
      simp only [fuseFreeLeft, usage, Bool.not_true,
        Bool.false_eq_true, if_false]
      refine ⟨front, fusedSlot left slot true, rfl, opened.fuseLeft true, ?_, ?_, ?_⟩
      · rw [append_assoc]
        exact Still.fuse front after rfl rfl
      · rw [used_append, used_cons, if_pos free]
        simp [used]
      · intro other otherEq
        rcases isChain_append.mp opened.coalesced.1 with
          ⟨-, -, join⟩
        have apart := join other otherEq left rfl
        rw [free] at apart
        simpa using apart

/-- After the right fusion the slot behind the open one is in use. -/
theorem Opened.fuseFreeRight :
    ∃ slot' after', (allocator.fuseFreeRight slot.key (keys after).head?).1 = slot'.key ∧
        Opened (allocator.fuseFreeRight slot.key (keys after).head?).2 before slot' after' ∧
        Still (before ++ slot :: after) (before ++ slot' :: after') ∧
        used after' = used after ∧
        ∀ right, after'.head? = some right → right.free = false := by
  have unchanged : Still (before ++ slot :: after) (before ++ slot :: after) := Still.refl _
  cases after with
  | nil =>
    refine ⟨slot, [], rfl, opened, unchanged, rfl, ?_⟩
    intro right headEq
    cases headEq
  | cons right back =>
    have headEq : (keys (right :: back)).head? = some right.key := rfl
    have usage := opened.usage right (by simp)
    rw [headEq]
    cases free : right.free with
    | false =>
      rw [free] at usage
      simp only [fuseFreeRight, usage, Bool.not_false, if_true]
      refine ⟨slot, right :: back, rfl, opened, unchanged, rfl, ?_⟩
      intro other otherEq
      cases otherEq
      exact free
    | true =>
      rw [free] at usage
      simp only [fuseFreeRight, usage, Bool.not_true,
        Bool.false_eq_true, if_false]
      refine ⟨fusedSlot slot right true, back, rfl, opened.fuseRight true,
          Still.fuse before back rfl rfl, ?_, ?_⟩
      · rw [used_cons, if_pos free]
      · intro other otherEq
        have apart := opened.coalesced.2.rel_head? otherEq
        rw [free] at apart
        simpa using apart

end

end

/-- Giving a node back removes it, and nothing else, from the nodes in use. -/
theorem Represents.freeNode {allocator : DeferBufferAllocator}
    (represents : Represents allocator (before ++ slot :: after)) (inUse : slot.free = false) :
    ∃ layout', Represents (allocator.freeNode slot.key) layout' ∧
        Still (before ++ slot :: after) layout' ∧
        used layout' = used before ++ used after := by
  have opened := represents.opened
  rw [represents.eraseFree_used inUse] at opened
  have leftEq := represents.threads.left_eq
  have rightEq := represents.threads.right_eq
  rcases opened.fuseFreeLeft with
    ⟨front, left, leftKey, leftOpened, leftStill, leftUsed, leftSealed⟩
  rcases leftOpened.fuseFreeRight with
    ⟨fused, back, fusedKey, fusedOpened, rightStill, rightUsed, rightSealed⟩
  have closed := (fusedOpened.relabel true).closeFree rfl ⟨leftSealed, rightSealed⟩
  refine ⟨front ++ { fused with free := true } :: back, ?_, ?_, ?_⟩
  · simp only [DeferBufferAllocator.freeNode, leftEq, rightEq, leftKey, fusedKey]
    exact closed
  · exact (leftStill.trans rightStill).trans (Still.relabel front back rfl rfl)
  · rw [used_append, used_cons, if_pos rfl, leftUsed, rightUsed]

/-! ## Handing a node out -/

section

variable {allocator : DeferBufferAllocator}

theorem Represents.append (represents : Represents allocator layout) (size : Nat) :
    Represents ((allocator.createMemNode size).2.insertAfter allocator.chunkCount none)
      (layout ++ [bareSlot allocator.chunkCount size false]) := by
  have frame := (allocator.createMemNode size).2.insertAfter_frame allocator.chunkCount none
  have fresh := allocator.createMemNode_fresh size
  have unused : allocator.chunkCount ∉ nodes layout := by
    intro member
    exact lt_irrefl _ (represents.threads.created _ member)
  have threads : Threads ((allocator.createMemNode size).2.insertAfter allocator.chunkCount none)
        (layout ++ [bareSlot allocator.chunkCount ((allocator.createMemNode size).2.mChunks
              allocator.chunkCount).size false]) :=
    (represents.threads.createMemNode size).append unused
      (Nat.lt_succ_self _) (by rw [fresh]) (by rw [fresh])
      (by rw [fresh]; exact ⟨rfl, rfl⟩)
  rw [fresh] at threads
  exact
    { threads := threads
      usage := by
        intro slot member
        rw [frame.1]
        rcases mem_append.mp member with old | new
        · have apart : slot.key ≠ allocator.chunkCount :=
            ne_of_lt (represents.threads.key_created old)
          rw [createMemNode_old _ _ apart]
          exact represents.usage slot old
        · rw [mem_singleton] at new
          rw [new, bareSlot_key, fresh, bareSlot_free]
          rfl
      freeList := by
        intro id
        rw [frame.2.1]
        show id ∈ allocator.mFreeList ↔ _
        rw [represents.freeList]
        constructor
        · rintro ⟨slot, member, sameKey, free⟩
          exact ⟨slot, mem_append_left _ member, sameKey, free⟩
        · rintro ⟨slot, member, sameKey, free⟩
          rcases mem_append.mp member with old | new
          · exact ⟨slot, old, sameKey, free⟩
          · rw [mem_singleton] at new
            rw [new] at free
            cases free
      freeDistinct := by
        rw [frame.2.1]
        exact represents.freeDistinct
      coalesced := by
        refine isChain_append.mpr ⟨represents.coalesced, isChain_singleton _, ?_⟩
        rintro left - right isNew ⟨-, free⟩
        cases isNew
        cases free
      unplanned := frame.2.2.trans represents.unplanned }

section

variable {before after : Layout NodeId} {slot : Slot NodeId}
  (opened : Opened allocator before slot after)

include opened

theorem Opened.splitRest (inUse : ∀ right, after.head? = some right → right.free = false)
    (rest : Nat) :
    Opened (allocator.splitRest slot.key rest) before slot
        (bareSlot allocator.chunkCount rest true :: after) ∧
      ((allocator.splitRest slot.key rest).mChunks slot.key).usage =
        (allocator.mChunks slot.key).usage := by
  generalize markedEq : (allocator.createMemNode rest).2.modify allocator.chunkCount
      (fun node => { node with usage := false }) = marked
  have sameNode : ∀ id, id ≠ allocator.chunkCount → marked.mChunks id = allocator.mChunks id := by
    intro id notFresh
    rw [← markedEq, modify_mChunks, if_neg notFresh,
      createMemNode_old _ _ notFresh]
  have fresh : marked.mChunks allocator.chunkCount = { size := rest, usage := false } := by
    rw [← markedEq, modify_mChunks, if_pos rfl,
      createMemNode_fresh]
  have sameList : marked.mFreeList = allocator.mFreeList := by
    rw [← markedEq]
    rfl
  have splitEq :
      allocator.splitRest slot.key rest =
        (marked.insertAfter allocator.chunkCount (some slot.key)).insertFree
          allocator.chunkCount := by
    rw [← markedEq]
    rfl
  have markedThreads : Threads marked (before ++ slot :: after) := by
    refine (opened.threads.createMemNode rest).congr ?_ ?_ ?_ ?_
    · intro id
      rw [← markedEq, modify_mChunks]
      split_ifs with isFresh
      · rw [isFresh]
        exact ⟨rfl, rfl, rfl, rfl, rfl⟩
      · exact ⟨rfl, rfl, rfl, rfl, rfl⟩
    · rw [← markedEq]
      rfl
    · rw [← markedEq]
      rfl
    · rw [← markedEq]
      rfl
  have apart : ∀ other ∈ before ++ slot :: after, other.key ≠ allocator.chunkCount := by
    intro other member
    exact ne_of_lt (opened.threads.key_created member)
  have unused : allocator.chunkCount ∉ nodes (before ++ slot :: after) := by
    intro member
    exact lt_irrefl _ (opened.threads.created _ member)
  have threaded : Threads (marked.insertAfter allocator.chunkCount (some slot.key))
        (before ++ slot :: bareSlot allocator.chunkCount
            (marked.mChunks allocator.chunkCount).size true :: after) := by
    apply markedThreads.insertAfter unused
    · rw [← markedEq]
      exact Nat.lt_succ_self _
    · rw [fresh]
    · rw [fresh]
  rw [fresh] at threaded
  have frame := marked.insertAfter_frame allocator.chunkCount (some slot.key)
  rw [splitEq]
  refine ⟨?_, ?_⟩
  · exact
      { threads :=
          threaded.congr (fun _ => ⟨rfl, rfl, rfl, rfl, rfl⟩) rfl rfl rfl
        usage := by
          intro other member
          show ((marked.insertAfter allocator.chunkCount
              (some slot.key)).mChunks other.key).usage = _
          rw [frame.1]
          simp only [mem_append, mem_cons] at member
          rcases member with early | rfl | late
          · rw [sameNode other.key (apart other (by simp [early]))]
            exact opened.usage other (mem_append_left _ early)
          · rw [bareSlot_key, fresh, bareSlot_free]
            rfl
          · rw [sameNode other.key (apart other (by simp [late]))]
            exact opened.usage other (mem_append_right _ late)
        freeList := by
          intro id
          rw [mem_insertFree, frame.2.1, sameList, opened.freeList]
          constructor
          · rintro (rfl | ⟨other, member, sameKey, free⟩)
            · exact ⟨bareSlot allocator.chunkCount rest true, by simp, rfl, rfl⟩
            · refine ⟨other, ?_, sameKey, free⟩
              simp only [mem_append, mem_cons] at member ⊢
              tauto
          · rintro ⟨other, member, sameKey, free⟩
            simp only [mem_append, mem_cons] at member
            rcases member with early | rfl | late
            · exact Or.inr ⟨other, mem_append_left _ early, sameKey, free⟩
            · exact Or.inl sameKey.symm
            · exact Or.inr ⟨other, mem_append_right _ late, sameKey, free⟩
        freeDistinct := by
          apply nodup_insertFree
          · rw [frame.2.1, sameList]
            exact opened.freeDistinct
          · rw [frame.2.1, sameList, opened.freeList]
            rintro ⟨other, member, sameKey, -⟩
            refine apart other ?_ sameKey
            simp only [mem_append, mem_cons] at member ⊢
            tauto
        coalesced := by
          refine ⟨opened.coalesced.1, isChain_cons.mpr ⟨?_, ?_⟩⟩
          · rintro right headEq ⟨-, free⟩
            rw [inUse right headEq] at free
            cases free
          · exact opened.coalesced.2
        unplanned := by
          have sameTotal : marked.mTotalSize = allocator.mTotalSize := by
            rw [← markedEq]
            rfl
          exact frame.2.2.trans (sameTotal.trans opened.unplanned) }
  · show ((marked.insertAfter allocator.chunkCount (some slot.key)).mChunks slot.key).usage = _
    rw [frame.1, sameNode slot.key (apart slot (by simp))]

theorem Opened.setUsage (usage : Bool) :
    Opened (allocator.modify slot.key fun node => { node with usage := usage })
      before slot after where
  threads := by
    refine opened.threads.congr ?_ rfl rfl rfl
    intro id
    rw [modify_mChunks]
    split_ifs with isSlot
    · rw [isSlot]
      exact ⟨rfl, rfl, rfl, rfl, rfl⟩
    · exact ⟨rfl, rfl, rfl, rfl, rfl⟩
  usage := by
    intro other member
    have apart := opened.threads.other_key member
    rw [modify_mChunks, if_neg apart]
    exact opened.usage other member
  freeList := opened.freeList
  freeDistinct := opened.freeDistinct
  coalesced := opened.coalesced
  unplanned := opened.unplanned

theorem Opened.resize (size : Nat) :
    Opened (allocator.modify slot.key fun node => { node with size := size })
      before { slot with size := size } after where
  threads := opened.threads.resize size slot.free
  usage := by
    intro other member
    have apart := opened.threads.other_key member
    rw [modify_mChunks, if_neg apart]
    exact opened.usage other member
  freeList := opened.freeList
  freeDistinct := opened.freeDistinct
  coalesced := opened.coalesced
  unplanned := opened.unplanned

end

theorem Represents.reuse (represents : Represents allocator (before ++ slot :: after))
    (free : slot.free = true) (size : Nat) :
    ∃ layout', Represents (allocator.reuse slot.key size) layout' ∧
        (∃ change : Shift (before ++ slot :: after) layout', ∀ index,
            change.distance index =
              if index ≤ before.length then 0 else size - slot.size) ∧
        used layout' = used before ++ (slot.key, size) :: used after := by
  have sealedSlot := represents.coalesced.sealed free
  have opened := represents.opened.setUsage true
  generalize markedEq : ((allocator.eraseFree slot.key).modify slot.key
      fun node => { node with usage := true }) = marked at opened
  have usage : (marked.mChunks slot.key).usage = true := by
    rw [← markedEq, modify_mChunks, if_pos rfl]
  have sizeEq : (marked.mChunks slot.key).size = slot.size :=
    (opened.threads.slots slot (by simp)).size
  by_cases larger : slot.size > size
  · have reuseEq :
        allocator.reuse slot.key size =
          (marked.splitRest slot.key (slot.size - size)).modify slot.key
            fun node => { node with size := size } := by
      simp only [DeferBufferAllocator.reuse, markedEq, sizeEq]
      rw [if_pos larger]
    rw [reuseEq]
    rcases opened.splitRest sealedSlot.2 (slot.size - size) with
      ⟨split, sameUsage⟩
    rw [usage] at sameUsage
    refine ⟨_, ((split.resize size).relabel false).closeUsed ?_ rfl, ?_, ?_⟩
    · rw [modify_mChunks, if_pos rfl]
      exact sameUsage
    · refine ⟨Shift.cut before after rfl ?_, fun index => ?_⟩
      · show size + (slot.size - size) = slot.size
        omega
      · show 0 = if index ≤ before.length then 0 else size - slot.size
        rw [Nat.sub_eq_zero_of_le (le_of_lt larger), ite_self]
    · rw [used_append, used_cons, used_cons]
      simp
  · have reuseEq :
        allocator.reuse slot.key size =
          marked.modify slot.key fun node => { node with size := size } := by
      simp only [DeferBufferAllocator.reuse, markedEq, sizeEq]
      rw [if_neg larger]
    rw [reuseEq]
    refine ⟨_, ((opened.resize size).relabel false).closeUsed ?_ rfl, ?_, ?_⟩
    · rw [modify_mChunks, if_pos rfl]
      exact usage
    · exact ⟨Shift.grow before after rfl (Nat.le_of_not_lt larger), fun _ => rfl⟩
    · rw [used_append, used_cons]
      simp

theorem DeferBufferAllocator.selectFree_mem {size : Nat} {select : NodeId}
    (selected : allocator.selectFree size = some select) :
    select ∈ allocator.mFreeList := by
  rw [selectFree, Option.or_eq_some_iff] at selected
  rcases selected with found | ⟨-, last⟩
  · exact mem_of_find?_eq_some found
  · exact mem_of_getLast? last

/-- Handing a node out adds it, and nothing else, to the nodes in use. -/
theorem Represents.alloc (represents : Represents allocator layout)
    (size : Nat) (separate : Bool) (align : Nat) :
    ∃ node layout', (allocator.alloc size separate align).1 = { mNode := some node } ∧
        Represents (allocator.alloc size separate align).2 layout' ∧
        Nonempty (Shift layout layout') ∧
        (used layout').Perm ((node, allocator.roundedSize size align) :: used layout) := by
  generalize roundedEq : allocator.roundedSize size align = rounded
  have fresh : ∃ layout', Represents ((allocator.createMemNode rounded).2.insertAfter
              allocator.chunkCount none) layout' ∧
          Nonempty (Shift layout layout') ∧
          (used layout').Perm ((allocator.chunkCount, rounded) :: used layout) := by
    refine ⟨_, represents.append rounded, ⟨Shift.push layout _⟩, ?_⟩
    rw [used_append]
    exact perm_append_comm
  cases separate with
  | true =>
    rcases fresh with ⟨layout', represents', shift, perm⟩
    refine ⟨allocator.chunkCount, layout', ?_, ?_, shift, perm⟩
    · rfl
    · simp only [DeferBufferAllocator.alloc, roundedEq]
      exact represents'
  | false =>
    cases selected : allocator.selectFree rounded with
    | none =>
      rcases fresh with ⟨layout', represents', shift, perm⟩
      refine ⟨allocator.chunkCount, layout', ?_, ?_, shift, perm⟩
      · simp only [DeferBufferAllocator.alloc, roundedEq, selected]
        rfl
      · simp only [DeferBufferAllocator.alloc, roundedEq, selected]
        exact represents'
    | some select =>
      have listed := selectFree_mem selected
      rcases (represents.freeList select).mp listed with
        ⟨slot, member, rfl, free⟩
      rcases append_of_mem member with ⟨before, after, rfl⟩
      rcases represents.reuse free rounded with
        ⟨layout', represents', ⟨shift, -⟩, usedEq⟩
      refine ⟨slot.key, layout', ?_, ?_, ⟨shift⟩, ?_⟩
      · simp only [alloc, roundedEq, selected]
      · simp only [alloc, roundedEq, selected]
        exact represents'
      · rw [usedEq, used_append, used_cons, if_pos free]
        exact perm_middle

end

end Mnn.Core.BufferAllocator
