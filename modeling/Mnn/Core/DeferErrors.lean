import Mnn.Core.DeferSoundness

/-!
# What `compute` reports

`compute` takes a plan to be complete if the free list is one node which is the
whole linked list.  It gives up without an error if the free list is empty, and
`apply` leaves the tensors as they are if the buffer seems to be the one they
already have.
-/

namespace Mnn.Core.BufferAllocator

open Mnn.Foundation.LinearLayout
open Mnn.Foundation.Runs
open List
open DeferBufferAllocator
open Session

/-! ## Operations -/

/-- A call of the client, or a tensor that registers itself with a chunk. -/
inductive Operation where
  | call (event : Call)
  | attach (index : Nat) (tensor : TensorId)

namespace Session

/-- The allocator after a reset, whatever happened before. -/
def afterReset (before : DeferBufferAllocator) : Session where
  allocator := before.reset

def operate (session : Session) : Operation → Option Session
  | .call event => session.call event
  | .attach index tensor =>
    match session.made[index]? with
    | none => none
    | some allocation =>
      some { session with allocator := session.allocator.attach allocation.chunk tensor }

end Session

variable {layout : Layout NodeId}

theorem Represents.attach {allocator : DeferBufferAllocator}
    (represents : Represents allocator layout) (chunk : MemChunk) (tensor : TensorId) :
    Represents (allocator.attach chunk tensor) layout := by
  cases isNode : chunk.mNode with
  | none =>
    rw [DeferBufferAllocator.attach, isNode]
    exact represents
  | some node =>
    rw [DeferBufferAllocator.attach, isNode]
    refine
      { threads := represents.threads.congr (fun id => ?_) rfl rfl rfl
        usage := fun slot member => ?_
        freeList := represents.freeList
        freeDistinct := represents.freeDistinct
        coalesced := represents.coalesced
        unplanned := represents.unplanned }
    · rw [modify_mChunks]
      split
      · rename_i isHere
        rw [isHere]
        exact ⟨rfl, rfl, rfl, rfl, rfl⟩
      · exact ⟨rfl, rfl, rfl, rfl, rfl⟩
    · rw [modify_mChunks, ← represents.usage slot member]
      split
      · rename_i isHere
        rw [isHere]
      · rfl

theorem Session.Sound.attach {session : Session} (sound : session.Sound layout)
    (chunk : MemChunk) (tensor : TensorId) :
    ({ session with allocator := session.allocator.attach chunk tensor } : Session).Sound
      layout := by
  have kept :
      (session.allocator.attach chunk tensor).mBarrrierFreeChunks =
          session.allocator.mBarrrierFreeChunks ∧
        (session.allocator.attach chunk tensor).mBarrrier = session.allocator.mBarrrier := by
    rw [DeferBufferAllocator.attach]
    split <;> exact ⟨rfl, rfl⟩
  exact
    { represents := sound.represents.attach chunk tensor
      live := sound.live
      waiting := kept.1.trans sound.waiting
      closed := fun closed => sound.closed (kept.2.symm.trans closed)
      made := sound.made
      apart := sound.apart }

theorem Session.Sound.operate {session next : Session} {operation : Operation}
    (sound : session.Sound layout) (taken : session.operate operation = some next) :
    ∃ layout', next.Sound layout' := by
  cases operation with
  | call event =>
    rcases sound.call taken with ⟨layout', sound', -⟩
    exact ⟨layout', sound'⟩
  | attach index tensor =>
    rw [Session.operate] at taken
    split at taken
    · nomatch taken
    · cases taken
      exact ⟨layout, sound.attach _ _⟩

theorem Session.sound_of_run
    {before : DeferBufferAllocator} {operations : List Operation} {last : Session}
    (ran : run operate (afterReset before) operations = some last) :
    ∃ layout, last.Sound layout := by
  have preserved :
      ∀ (state : Session) operation next,
        (∃ layout, state.Sound layout) → state.operate operation = some next →
          ∃ layout, next.Sound layout := by
    rintro state operation next ⟨layout, sound⟩ taken
    exact sound.operate taken
  have first : ∃ layout, (afterReset before).Sound layout :=
    ⟨[], Sound.empty rfl rfl rfl rfl rfl⟩
  exact run_invariant preserved first ran

/-! ## Addresses -/

variable (allocator : DeferBufferAllocator)

namespace DeferBufferAllocator

/-- What only fixes offsets and the total size. -/
structure Placing (earlier later : DeferBufferAllocator) : Prop where
  frame : later = { earlier with mChunks := later.mChunks, mTotalSize := later.mTotalSize }
  chunks : ∀ id, later.mChunks id = { earlier.mChunks id with offset := (later.mChunks id).offset }

theorem Placing.refl : Placing allocator allocator :=
  ⟨rfl, fun _ => rfl⟩

theorem Placing.trans {first second third : DeferBufferAllocator}
    (earlier : Placing first second) (later : Placing second third) : Placing first third := by
  refine ⟨?_, fun id => ?_⟩
  · rw [later.frame, earlier.frame]
  · rw [later.chunks, earlier.chunks]

theorem placing_modify (id : NodeId) (offset : MemNode → Nat) :
    Placing allocator (allocator.modify id fun node => { node with offset := offset node }) := by
  refine ⟨rfl, fun other => ?_⟩
  rw [modify_mChunks]
  split
  · rename_i isHere
    rw [isHere]
  · rfl

theorem placing_total (total : Nat) :
    Placing allocator { allocator with mTotalSize := total } :=
  ⟨rfl, fun _ => rfl⟩

theorem placing_visiChildren (fuel : Nat) (allocator : DeferBufferAllocator)
    (chunk : NodeId) : Placing allocator (visiChildren fuel allocator chunk) := by
  induction fuel generalizing allocator chunk with
  | zero => exact Placing.refl allocator
  | succ fuel ih =>
    rw [visiChildren_succ]
    generalize (allocator.mChunks chunk).children = children
    induction children generalizing allocator with
    | nil => exact Placing.refl allocator
    | cons child children below =>
      rw [foldl_cons]
      exact ((placing_modify _ _ _).trans (ih _ _)).trans (below _)

theorem placing_layOut (fuel : Nat) (allocator : DeferBufferAllocator)
    (chunk : Option NodeId) : Placing allocator (layOut fuel allocator chunk) := by
  induction fuel generalizing allocator chunk with
  | zero => exact Placing.refl allocator
  | succ fuel ih =>
    cases chunk with
    | none => exact Placing.refl allocator
    | some chunk =>
      rw [layOut]
      have placed : Placing allocator (visiChildren allocator.chunkCount
              (allocator.modify chunk fun node =>
                { node with offset := allocator.mTotalSize })
              chunk) :=
        (placing_modify allocator chunk fun _ => allocator.mTotalSize).trans
          (placing_visiChildren _ _ chunk)
      exact (placed.trans (placing_total _ _)).trans (ih _ _)

/-- The body of the loop of `apply`. -/
def applyChunk (allocator : DeferBufferAllocator) (id : NodeId) : DeferBufferAllocator :=
  let allocator :=
    allocator.modify id fun node => { node with base := allocator.chunkPtr allocator.mPtr }
  { allocator with
    applied := allocator.applied ++ (allocator.mChunks id).tensors.map fun tensor =>
          (allocator.chunkBase allocator.mPtr,
            (allocator.mChunks id).offset + allocator.chunkOffset allocator.mPtr, tensor) }

theorem applyChunks_eq :
    allocator.applyChunks = (List.range allocator.chunkCount).foldl applyChunk allocator :=
  rfl

/-- What is read of an address: the node, and the buffer. -/
def addressesOf (allocator : DeferBufferAllocator) (id : NodeId) : List (Nat × Nat × TensorId) :=
  (allocator.mChunks id).tensors.map fun tensor =>
    (allocator.mPtr.first, (allocator.mChunks id).offset + allocator.mPtr.second, tensor)

/-- The address of each tensor, node by node. -/
def addresses (allocator : DeferBufferAllocator) : List (Nat × Nat × TensorId) :=
  (List.range allocator.chunkCount).flatMap allocator.addressesOf

theorem applyChunk_spec (id : NodeId) (isAddress : allocator.mPtr.mNode = none) :
    (allocator.applyChunk id).applied = allocator.applied ++ allocator.addressesOf id ∧
      (allocator.applyChunk id).mPtr = allocator.mPtr ∧
      ∀ other, (allocator.applyChunk id).addressesOf other = allocator.addressesOf other := by
  refine ⟨?_, rfl, fun other => ?_⟩
  · simp [applyChunk, addressesOf, chunkBase, chunkOffset, isAddress, modify]
  · by_cases isHere : other = id
    · simp [applyChunk, addressesOf, isHere, modify]
    · simp [applyChunk, addressesOf, isHere, modify]

theorem applyChunks_applied (isAddress : allocator.mPtr.mNode = none) :
    allocator.applyChunks.applied = allocator.applied ++ allocator.addresses ∧
      allocator.applyChunks.addresses = allocator.addresses := by
  have loop (ids : List NodeId) :
      ∀ allocator' : DeferBufferAllocator, allocator'.mPtr.mNode = none →
        (ids.foldl applyChunk allocator').applied =
            allocator'.applied ++ ids.flatMap allocator'.addressesOf ∧
          (ids.foldl applyChunk allocator').chunkCount = allocator'.chunkCount ∧
          ∀ other, (ids.foldl applyChunk allocator').addressesOf other =
              allocator'.addressesOf other := by
    induction ids with
    | nil =>
      intro allocator' _
      exact ⟨(append_nil _).symm, rfl, fun _ => rfl⟩
    | cons id ids ih =>
      intro allocator' isAddress'
      rcases applyChunk_spec allocator' id isAddress' with ⟨applied, ptr, same⟩
      rcases ih (allocator'.applyChunk id) (ptr ▸ isAddress') with
        ⟨later, count, same'⟩
      refine ⟨?_, count, fun other => (same' other).trans (same other)⟩
      rw [foldl_cons, later, applied, flatMap_cons, append_assoc,
        funext same]
  rcases loop (List.range allocator.chunkCount) allocator isAddress with
    ⟨applied, count, same⟩
  rw [applyChunks_eq]
  exact ⟨applied, by rw [addresses, count, funext same, addresses]⟩

/-- The buffer is not the one that the tensors seem to have. -/
def NeedsApply (allocator : DeferBufferAllocator) (size : Nat) : Prop :=
  allocator.mParent.currentSize < size ∨ allocator.mPtr.first ≠ allocator.mParent.current.first ∨
    allocator.mPtr.second ≠ allocator.mParent.current.second

/-- Without an error the tensors have got their addresses, unless none was handed out. -/
theorem apply_applied_iff (onAlloc : Nat → Nat → MemChunk) (some : allocator.mFreeList ≠ [])
    (isAddress : allocator.mParent.current.mNode = none)
    (areAddresses : ∀ size align, (onAlloc size align).mNode = none) :
    ((allocator.apply onAlloc).1 = .noError → (allocator.apply onAlloc).2.applied =
          allocator.applied ++ (allocator.apply onAlloc).2.addresses) ↔
      allocator.NeedsApply allocator.mTotalSize ∨ allocator.addresses = [] := by
  unfold apply
  rw [if_neg some]
  by_cases grows : allocator.mParent.currentSize < allocator.mTotalSize
  · rw [if_pos grows]
    refine iff_of_true ?_ (Or.inl (Or.inl grows))
    split
    · rename_i parent isRealloc
      intro _
      have isAddress' : parent.current.mNode = none := by
        rw [SingleBufferWithAllocator.realloc, if_pos grows] at isRealloc
        simp only at isRealloc
        split at isRealloc
        · nomatch (Prod.mk.inj isRealloc).1
        · rw [← (Prod.mk.inj isRealloc).2]
          exact areAddresses _ _
      rcases applyChunks_applied
          { allocator with mParent := parent, mPtr := parent.current } isAddress' with
        ⟨applied, same⟩
      rw [applied, same]
    · rename_i code parent notDone isRealloc
      intro done
      exact absurd (show code = .noError from done) notDone
  · rw [if_neg grows]
    split
    · rename_i moved
      refine iff_of_true (fun _ => ?_) (Or.inl (Or.inr moved))
      rcases applyChunks_applied { allocator with mPtr := allocator.mParent.current } isAddress with
        ⟨applied, same⟩
      rw [applied, same]
    · rename_i notMoved
      rw [or_iff_right fun needs => needs.elim grows notMoved]
      constructor
      · intro given
        exact self_eq_append_right.mp (given rfl)
      · intro none _
        exact self_eq_append_right.mpr none

end DeferBufferAllocator

/-! ## What is reported -/

namespace Session

variable (session : Session) (onAlloc : Nat → Nat → MemChunk)

/-- There is an error if a chunk is live; else every tensor gets its address. -/
structure Reports : Prop where
  error : session.live ≠ [] → (session.allocator.compute onAlloc).1 ≠ .noError
  given :
    (session.allocator.compute onAlloc).1 = .noError →
      (session.allocator.compute onAlloc).2.applied =
        session.allocator.applied ++ (session.allocator.compute onAlloc).2.addresses

/-- The first node, which is the whole plan in the end. -/
def planSize : Nat :=
  session.allocator.mHead.elim 0 fun head => (session.allocator.mChunks head).size

/--
Something is free, and unless a chunk is live, the buffer changes or no tensor
has registered itself.
-/
def IsDetected : Prop :=
  session.allocator.mFreeList ≠ [] ∧
    (session.live ≠ [] ∨ session.allocator.NeedsApply session.planSize ∨
      ∀ id < session.allocator.chunkCount, (session.allocator.mChunks id).tensors = [])

variable {session}

theorem Sound.head_ne_tail (sound : session.Sound layout)
    (some : session.allocator.mFreeList ≠ []) (someLive : session.live ≠ []) :
    session.allocator.mHead ≠ session.allocator.mTail := by
  have represents := sound.represents
  rcases exists_mem_of_ne_nil _ some with ⟨id, isFree⟩
  rcases (represents.freeList id).mp isFree with ⟨freeSlot, isSlot, -, free⟩
  rcases exists_mem_of_ne_nil _ someLive with ⟨allocation, isLive⟩
  rcases mem_map.mp (sound.live.subset isLive) with ⟨entry, isUsed, -⟩
  rcases mem_map.mp isUsed with ⟨usedSlot, isUsed, -⟩
  rcases mem_filter.mp isUsed with ⟨isSlot', notFree⟩
  have differ : freeSlot ≠ usedSlot := by
    rintro rfl
    rw [free] at notFree
    nomatch notFree
  rw [represents.threads.head, represents.threads.tail]
  intro same
  have distinct := represents.threads.keys_distinct
  cases layout with
  | nil => nomatch isSlot
  | cons first rest =>
    cases rest with
    | nil =>
      rw [mem_singleton] at isSlot isSlot'
      exact differ (isSlot.trans isSlot'.symm)
    | cons second rest =>
      rw [keys_cons, head?_cons, getLast?_cons_of_ne_nil (by simp)] at same
      rw [keys_cons, nodup_cons] at distinct
      exact distinct.1 (mem_of_getLast? same.symm)

/-- `compute` reports what it has to if and only if it can tell. -/
theorem Sound.reports_iff (sound : session.Sound layout) (some : session.made ≠ [])
    (isAddress : session.allocator.mParent.current.mNode = none)
    (areAddresses : ∀ size align, (onAlloc size align).mNode = none) :
    session.Reports onAlloc ↔ session.IsDetected := by
  have represents := sound.represents
  have notEmpty : layout ≠ [] := by
    rintro rfl
    rcases exists_mem_of_ne_nil _ some with ⟨allocation, isMade⟩
    rcases sound.made allocation isMade with ⟨node, -, index, position, marked, -⟩
    exact Nat.not_lt_zero _ marked.index_lt
  by_cases noneFree : session.allocator.mFreeList = []
  · -- every node is in use, and `compute` does not look at it
    have isComputed : session.allocator.compute onAlloc = (.noError, session.allocator) := by
      rw [compute, if_neg (by rw [represents.unplanned]; decide),
        if_pos noneFree]
    refine iff_of_false (fun reports => ?_) fun detected => detected.1 noneFree
    refine reports.error ?_ (by rw [isComputed])
    rcases exists_mem_of_ne_nil _ notEmpty with ⟨slot, isSlot⟩
    have isUsed : slot.free = false := by
      refine Bool.eq_false_iff.mpr fun isFree => ?_
      have isIn := (represents.freeList slot.key).mpr ⟨slot, isSlot, rfl, isFree⟩
      rw [noneFree] at isIn
      cases isIn
    intro noneLive
    have live := sound.live
    rw [noneLive] at live
    have unused := map_eq_nil_iff.mp live.nil_eq.symm
    have inUse : (slot.key, slot.size) ∈ used layout :=
      mem_map.mpr ⟨slot, mem_filter.mpr ⟨isSlot, by simpa using isUsed⟩, rfl⟩
    rw [unused] at inUse
    cases inUse
  · by_cases noneLive : session.live = []
    · have live := sound.live
      rw [noneLive] at live
      rcases represents.single (map_eq_nil_iff.mp live.nil_eq.symm) with
        isNil | ⟨slot, rfl, isFree⟩
      · exact absurd isNil notEmpty
      · rcases represents.compute_single isFree onAlloc with ⟨-, total, code⟩
        have isComputed :
            session.allocator.compute onAlloc =
              (layOut session.allocator.chunkCount session.allocator
                session.allocator.mHead).apply onAlloc := by
          rw [compute, if_neg (by rw [represents.unplanned]; decide),
            if_neg noneFree] at code ⊢
          split at code
          · exact absurd rfl code
          · rename_i whole
            rw [if_neg whole]
        have placing :=
          placing_layOut session.allocator.chunkCount session.allocator session.allocator.mHead
        rw [isComputed, (apply_offset _ _ slot.key).2] at total
        generalize layOut session.allocator.chunkCount session.allocator
          session.allocator.mHead = planned at isComputed placing total
        have isPlanSize : session.planSize = planned.mTotalSize := by
          have isHead : session.allocator.mHead = Option.some slot.key := represents.threads.head
          rw [planSize, isHead, Option.elim_some, total]
          exact (represents.threads.slots slot mem_cons_self).size
        have sameParent : planned.mParent = session.allocator.mParent := by
          rw [placing.frame]
        have samePtr : planned.mPtr = session.allocator.mPtr := by rw [placing.frame]
        have sameCount : planned.chunkCount = session.allocator.chunkCount := by
          rw [placing.frame]
        have sameFree : planned.mFreeList = session.allocator.mFreeList := by
          rw [placing.frame]
        have sameApplied : planned.applied = session.allocator.applied := by
          rw [placing.frame]
        have noAddress : planned.addresses = [] ↔ ∀ id < session.allocator.chunkCount,
              (session.allocator.mChunks id).tensors = [] := by
          rw [addresses, flatMap_eq_nil_iff, sameCount]
          refine forall_congr' fun id => ?_
          rw [mem_range, addressesOf, map_eq_nil_iff, placing.chunks]
        have applied := apply_applied_iff planned onAlloc (by rwa [sameFree])
            (by rwa [sameParent]) areAddresses
        rw [noAddress, sameApplied, NeedsApply, sameParent, samePtr,
          ← isPlanSize, ← isComputed] at applied
        constructor
        · intro reports
          exact ⟨noneFree, Or.inr (applied.mp reports.given)⟩
        · rintro ⟨-, isLive | detected⟩
          · exact absurd noneLive isLive
          · exact ⟨fun isLive => absurd noneLive isLive, applied.mpr detected⟩
    · have isInvalid : (session.allocator.compute onAlloc).1 = .invalidValue := by
        rw [compute, if_neg (by rw [represents.unplanned]; decide),
          if_neg noneFree, if_pos (Or.inr (sound.head_ne_tail noneFree noneLive))]
      refine iff_of_true ⟨fun _ => ?_, fun done => ?_⟩ ⟨noneFree, Or.inl noneLive⟩
      · rw [isInvalid]
        decide
      · rw [isInvalid] at done
        cases done

end Session

/-- A tensor registers itself with a chunk, which is freed afterwards. -/
def attachedOperations : List Operation := [.call (.alloc 10 false 0), .attach 0 7, .call (.free 0)]

end Mnn.Core.BufferAllocator
