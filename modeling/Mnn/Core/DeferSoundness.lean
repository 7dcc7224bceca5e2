import Mnn.Core.DeferSteps
import Mnn.Foundation.Runs

/-!
# Soundness of the deferred memory plan

A session is an allocator in the hands of a client who frees only what it
holds.  Every allocation it ever made keeps a place in the plan, and
allocations that were live together never come to lie on top of each other.
The invariant speaks about marks of the layout, so that it survives every
split, fusion and expansion; `compute` turns marks into offsets.
-/

variable {first second allocation : Allocation}

namespace Mnn.Core.BufferAllocator

open Mnn.Foundation.LinearLayout
open Mnn.Foundation.Runs
open List
open DeferBufferAllocator

variable {allocator : DeferBufferAllocator} {layout : Layout NodeId}

/-! ## Offsets after `compute` -/

namespace DeferBufferAllocator

/-- The body of the loop of `visiChildren`. -/
def visitChild (fuel : Nat) (chunk : NodeId) (allocator : DeferBufferAllocator) (child : NodeId) :
    DeferBufferAllocator :=
  visiChildren fuel (allocator.modify child fun node =>
      { node with
        offset := node.offset + (allocator.mChunks chunk).offset })
    child

theorem visiChildren_succ (fuel : Nat) (allocator : DeferBufferAllocator) (chunk : NodeId) :
    visiChildren (fuel + 1) allocator chunk =
      (allocator.mChunks chunk).children.foldl (visitChild fuel chunk) allocator :=
  rfl

end DeferBufferAllocator

/-- The nodes of `marks` have been moved to their distance from `base`. -/
structure Visited
    (earlier later : DeferBufferAllocator)
    (base : Nat) (marks : List (NodeId × Nat)) : Prop where
  placed : ∀ id relative, (id, relative) ∈ marks → (later.mChunks id).offset = base + relative
  others : ∀ id, id ∉ marks.map Prod.fst → later.mChunks id = earlier.mChunks id
  frame : later = { earlier with mChunks := later.mChunks }

theorem KidMarks.visited {chunks : NodeId → MemNode} {kids : List NodeId}
    {marks : List (NodeId × Nat)} (kidMarks : KidMarks chunks kids marks)
    {fuel : Nat} {owner : NodeId} (enough : marks.length ≤ fuel)
    (distinct : (marks.map Prod.fst).Nodup) (outside : owner ∉ marks.map Prod.fst)
    (same : ∀ id ∈ marks.map Prod.fst, allocator.mChunks id = chunks id) :
    Visited allocator (kids.foldl (visitChild fuel owner) allocator)
      (allocator.mChunks owner).offset marks := by
  induction kidMarks generalizing fuel allocator owner with
  | nil =>
    refine ⟨?_, ?_, rfl⟩
    · intro id relative member
      cases member
    · intro id _
      rfl
  | @cons kid kids below others inner outer innerIH outerIH =>
    simp only [shiftMarks, map_cons, cons_append,
      length_cons, length_append, length_map] at enough
    simp only [map_append, map_fst_shiftMarks, map_cons, cons_append, nodup_cons, nodup_append,
      mem_append, not_or] at distinct
    rcases distinct with
      ⟨⟨kidBelow, kidOthers⟩, belowDistinct, othersDistinct, apart⟩
    simp only [map_append, map_fst_shiftMarks, map_cons,
      cons_append, mem_cons, mem_append, not_or] at outside
    rcases outside with ⟨ownerKid, ownerBelow, ownerOthers⟩
    have sameKid : allocator.mChunks kid = chunks kid := same kid (by simp)
    cases fuel with
    | zero => omega
    | succ fuel =>
      rw [foldl_cons]
      generalize movedEq : (allocator.modify kid fun node =>
          { node with
            offset := node.offset + (allocator.mChunks owner).offset }) = moved
      have movedKid :
          moved.mChunks kid =
            { chunks kid with
              offset := (chunks kid).offset + (allocator.mChunks owner).offset } := by
        rw [← movedEq, modify_mChunks, if_pos rfl, sameKid]
      have movedOther : ∀ id, id ≠ kid → moved.mChunks id = allocator.mChunks id := by
        intro id notKid
        rw [← movedEq, modify_mChunks, if_neg notKid]
      have visit : visitChild (fuel + 1) owner allocator kid =
            (chunks kid).children.foldl (visitChild fuel kid) moved := by
        rw [visitChild, movedEq,
          visiChildren_succ, movedKid]
      have innerVisited : Visited moved ((chunks kid).children.foldl (visitChild fuel kid) moved)
            (moved.mChunks kid).offset below := by
        apply innerIH (by omega) belowDistinct kidBelow
        intro id member
        have notKid : id ≠ kid := by
          rintro rfl
          exact kidBelow member
        rw [movedOther id notKid]
        exact same id (by simp [member])
      rw [← visit] at innerVisited
      generalize laterEq :
        visitChild (fuel + 1) owner allocator kid = later at innerVisited
      have laterOther :
          ∀ id, id ≠ kid → id ∉ below.map Prod.fst → later.mChunks id = allocator.mChunks id := by
        intro id notKid notBelow
        rw [innerVisited.others id notBelow, movedOther id notKid]
      have laterOwner : later.mChunks owner = allocator.mChunks owner :=
        laterOther owner ownerKid ownerBelow
      have outerVisited : Visited later (kids.foldl (visitChild (fuel + 1) owner) later)
            (later.mChunks owner).offset others := by
        apply outerIH (by omega) othersDistinct ownerOthers
        intro id member
        rw [laterOther id]
        · exact same id (by simp [member])
        · rintro rfl
          exact kidOthers member
        · intro inBelow
          exact apart id inBelow id member rfl
      rw [laterOwner] at outerVisited
      refine ⟨?_, ?_, ?_⟩
      · intro id relative member
        rcases mem_append.mp member with inner | outer
        · rcases mem_map.mp inner with
            ⟨⟨mark, distance⟩, markMember, markEq⟩
          simp only [Prod.mk.injEq] at markEq
          rcases markEq with ⟨rfl, rfl⟩
          have notOthers : mark ∉ others.map Prod.fst := by
            intro inOthers
            rcases mem_cons.mp markMember with isKid | inBelow
            · cases isKid
              exact kidOthers inOthers
            · exact apart mark (mem_map_of_mem inBelow) mark inOthers
                  rfl
          rw [outerVisited.others mark notOthers]
          rcases mem_cons.mp markMember with isKid | inBelow
          · cases isKid
            rw [innerVisited.others kid kidBelow, movedKid]
            simp only
            omega
          · rw [innerVisited.placed mark distance inBelow, movedKid]
            simp only
            omega
        · exact outerVisited.placed id relative outer
      · intro id absent
        simp only [map_append, map_fst_shiftMarks, map_cons, cons_append, mem_cons, mem_append,
          not_or] at absent
        rw [outerVisited.others id absent.2.2, laterOther id absent.1 absent.2.1]
      · rw [outerVisited.frame, innerVisited.frame, ← movedEq]
        rfl

namespace DeferBufferAllocator

theorem applyChunks_offset (allocator : DeferBufferAllocator) (id : NodeId) :
    (allocator.applyChunks.mChunks id).offset = (allocator.mChunks id).offset ∧
      allocator.applyChunks.mTotalSize = allocator.mTotalSize := by
  unfold applyChunks
  generalize List.range allocator.chunkCount = ids
  induction ids generalizing allocator with
  | nil => exact ⟨rfl, rfl⟩
  | cons next rest ih =>
    rw [foldl_cons]
    refine ⟨(ih _).1.trans ?_, (ih _).2.trans rfl⟩
    simp only [modify_mChunks]
    split_ifs with isNext
    · rw [isNext]
    · rfl

theorem realloc_code (buffer : SingleBufferWithAllocator) (onAlloc : Nat → Nat → MemChunk)
    (size align : Nat) :
    (buffer.realloc onAlloc size align).1 ≠ .invalidValue := by
  unfold SingleBufferWithAllocator.realloc
  by_cases small : buffer.currentSize < size
  · by_cases failed : (onAlloc size align).first = 0
    · simp [small, failed]
    · simp [small, failed]
  · simp [small]

theorem apply_offset (allocator : DeferBufferAllocator) (onAlloc : Nat → Nat → MemChunk)
    (id : NodeId) :
    ((allocator.apply onAlloc).2.mChunks id).offset = (allocator.mChunks id).offset ∧
      (allocator.apply onAlloc).2.mTotalSize = allocator.mTotalSize := by
  unfold apply
  split_ifs
  · exact ⟨rfl, rfl⟩
  · split
    · exact applyChunks_offset _ id
    · exact ⟨rfl, rfl⟩
  · exact applyChunks_offset _ id
  · exact ⟨rfl, rfl⟩

theorem apply_code (allocator : DeferBufferAllocator) (onAlloc : Nat → Nat → MemChunk) :
    (allocator.apply onAlloc).1 ≠ .invalidValue := by
  have code := realloc_code allocator.mParent onAlloc allocator.mTotalSize allocator.mAlign
  unfold apply
  split_ifs
  · simp
  · split
    · simp
    · next reallocEq =>
        rw [reallocEq] at code
        exact code
  · simp
  · simp

end DeferBufferAllocator

/-- Once every node is free the plan is a single slot, or empty. -/
theorem Represents.single (represents : Represents allocator layout) (unused : used layout = []) :
    layout = [] ∨ ∃ slot, layout = [slot] ∧ slot.free = true := by
  have free : ∀ slot ∈ layout, slot.free = true := by
    intro slot member
    by_contra notFree
    have inUse : (slot.key, slot.size) ∈ used layout := by
      refine mem_map.mpr ⟨slot, mem_filter.mpr ⟨member, ?_⟩, rfl⟩
      simpa using notFree
    rw [unused] at inUse
    cases inUse
  cases layout with
  | nil => exact Or.inl rfl
  | cons first rest =>
    right
    cases rest with
    | nil => exact ⟨first, rfl, free first mem_cons_self⟩
    | cons second others =>
      have apart := represents.coalesced.rel_head? rfl
      exact absurd ⟨free first (by simp), free second (by simp)⟩ apart

theorem Represents.compute_single {slot : Slot NodeId} (represents : Represents allocator [slot])
    (free : slot.free = true) (onAlloc : Nat → Nat → MemChunk) :
    (∀ id relative, (id, relative) ∈ slot.marks →
        ((allocator.compute onAlloc).2.mChunks id).offset = relative) ∧
      (allocator.compute onAlloc).2.mTotalSize = slot.size ∧
      (allocator.compute onAlloc).1 ≠ .invalidValue := by
  have threads := represents.threads
  have headEq : allocator.mHead = some slot.key := threads.head
  have tailEq : allocator.mTail = some slot.key := threads.tail
  have rightEq : (allocator.mChunks slot.key).right = none := threads.linked.2.1
  have listEq : allocator.mFreeList = [slot.key] := by
    have members : ∀ id, id ∈ allocator.mFreeList ↔ id ∈ [slot.key] := by
      intro id
      rw [represents.freeList, mem_singleton]
      constructor
      · rintro ⟨other, member, rfl, -⟩
        rw [mem_singleton.mp member]
      · rintro rfl
        exact ⟨slot, by simp, rfl, free⟩
    have perm := (perm_ext_iff_of_nodup represents.freeDistinct (nodup_singleton _)).mpr members
    exact perm_singleton.mp perm
  have slotRep := threads.slots slot (by simp)
  rcases slotRep.marks with ⟨below, kidMarks, marksEq⟩
  have distinct := threads.distinct
  have created := threads.created
  rw [nodes_cons, nodes_nil, append_nil, marksEq] at distinct created
  rw [map_cons, nodup_cons] at distinct
  have bounded : below.length < allocator.chunkCount := by
    have contained : slot.key :: below.map Prod.fst ⊆ List.range allocator.chunkCount := by
      intro id member
      exact mem_range.mpr (created id (by simpa using member))
    have subperm := subperm_of_subset (nodup_cons.mpr distinct) contained
    have lengths := subperm.length_le
    rw [length_cons, length_map, length_range] at lengths
    exact lengths
  generalize fuelEq : allocator.chunkCount = fuel at bounded
  cases fuel with
  | zero => omega
  | succ fuel =>
    generalize placedEq : (allocator.modify slot.key fun node =>
        { node with offset := allocator.mTotalSize }) = placed
    have placedSame : ∀ id, placed.mChunks id = allocator.mChunks id := by
      intro id
      rw [← placedEq, modify_mChunks]
      split_ifs with isKey
      · rw [isKey, represents.unplanned, ← slotRep.offset]
      · rfl
    have placedCount : placed.chunkCount = fuel + 1 := by
      rw [← placedEq]
      exact fuelEq
    have placedTotal : placed.mTotalSize = 0 := by
      rw [← placedEq]
      exact represents.unplanned
    have visited : Visited placed (visiChildren (fuel + 1) placed slot.key)
          0 below := by
      have moved : Visited placed ((allocator.mChunks slot.key).children.foldl
              (visitChild fuel slot.key) placed)
            (placed.mChunks slot.key).offset below :=
        kidMarks.visited (by omega) distinct.2 distinct.1
          fun id _ => placedSame id
      rw [placedSame, slotRep.offset] at moved
      rw [visiChildren_succ, placedSame]
      exact moved
    generalize laterEq : visiChildren (fuel + 1) placed slot.key = later
        at visited
    have laterKey : later.mChunks slot.key = allocator.mChunks slot.key := by
      rw [visited.others _ distinct.1, placedSame]
    have laterTotal : later.mTotalSize = 0 := by
      rw [visited.frame]
      exact placedTotal
    have layOutEq :
        layOut (fuel + 1) allocator (some slot.key) =
          { later with mTotalSize := slot.size } := by
      rw [layOut]
      simp only [placedEq, placedCount, laterEq, laterKey, laterTotal,
        slotRep.size, rightEq, zero_add]
      cases fuel <;> rfl
    have computeEq :
        allocator.compute onAlloc =
          apply { later with mTotalSize := slot.size }
            onAlloc := by
      rw [compute, if_neg (by simp [represents.unplanned]),
        if_neg (by simp [listEq]),
        if_neg (by simp [listEq, headEq, tailEq]), fuelEq, headEq,
        layOutEq]
    rw [computeEq]
    refine ⟨?_, ?_, apply_code _ _⟩
    · intro id relative member
      rw [(apply_offset _ _ _).1]
      show (later.mChunks id).offset = relative
      rw [marksEq] at member
      rcases mem_cons.mp member with isKey | inBelow
      · cases isKey
        rw [laterKey, slotRep.offset]
      · rw [visited.placed id relative inBelow, zero_add]
    · rw [(apply_offset _ _ slot.key).2]

/-! ## Sessions -/

/-- A chunk which `alloc` returned, with the rounded size of the request. -/
structure Allocation where
  chunk : MemChunk
  size : Nat

/--
The allocator with its client.  `held` are the chunks not yet freed,
`deferred` those freed since the barrier was opened; `lives` lists what was
live after each call.
-/
structure Session where
  allocator : DeferBufferAllocator
  made : List Allocation := []
  held : List Allocation := []
  deferred : List Allocation := []
  lives : List (List Allocation) := []

namespace Session

/-- A new allocator over a parent buffer that may have been used before. -/
def start (align : Nat) (parent : SingleBufferWithAllocator) : Session where
  allocator := { mAlign := align, mParent := parent }

/-- A chunk freed inside a barrier counts as live until `barrierEnd`. -/
def live (session : Session) : List Allocation := session.held ++ session.deferred

def record (session : Session) : Session := { session with lives := session.live :: session.lives }

end Session

inductive Call where
  | alloc (size : Nat) (separate : Bool) (align : Nat)
  | free (index : Nat)
  | barrierBegin
  | barrierEnd

/-- Only `alloc` hands out a chunk. -/
def Call.isAlloc : Call → Bool
  | .alloc .. => true
  | _ => false

/-- One call; a client frees only what it holds. -/
def Session.call (session : Session) : Call → Option Session
  | .alloc size separate align =>
    let (chunk, allocator) := session.allocator.alloc size separate align
    let allocation : Allocation :=
      { chunk, size := session.allocator.roundedSize size align }
    some
      { session with
        allocator
        made := allocation :: session.made
        held := allocation :: session.held : Session }.record
  | .free index =>
    match session.held[index]? with
    | none => none
    | some allocation =>
      some
        { session with
          allocator := (session.allocator.free allocation.chunk).2
          held := session.held.eraseIdx index
          deferred :=
            if session.allocator.mBarrrier then
              session.deferred ++ [allocation]
            else
              session.deferred : Session }.record
  | .barrierBegin =>
    some
      { session with
        allocator := session.allocator.barrierBegin : Session }.record
  | .barrierEnd =>
    some
      { session with
        allocator := session.allocator.barrierEnd
        deferred := [] : Session }.record

/-- Two allocations lie in order in the plan, one way or the other. -/
def Apart (layout : Layout NodeId) (first second : Allocation) : Prop :=
  ∃ left right,
    first.chunk = { mNode := some left } ∧ second.chunk = { mNode := some right } ∧
      (Precedes layout left first.size right ∨ Precedes layout right second.size left)

/-- An allocation lies inside the plan. -/
def Placed (layout : Layout NodeId) (allocation : Allocation) : Prop :=
  ∃ node, allocation.chunk = { mNode := some node } ∧ Inside layout node allocation.size

theorem Apart.symm (apart : Apart layout first second) : Apart layout second first := by
  rcases apart with ⟨left, right, leftEq, rightEq, ordered⟩
  exact ⟨right, left, rightEq, leftEq, ordered.symm⟩

theorem Apart.shift {source target : Layout NodeId} (change : Shift source target)
    (apart : Apart source first second) : Apart target first second := by
  rcases apart with ⟨left, right, leftEq, rightEq, ordered⟩
  exact ⟨left, right, leftEq, rightEq, ordered.imp (Precedes.shift change) (Precedes.shift change)⟩

theorem Placed.shift {source target : Layout NodeId} (change : Shift source target)
    (placed : Placed source allocation) : Placed target allocation := by
  rcases placed with ⟨node, chunkEq, inside⟩
  exact ⟨node, chunkEq, inside.shift change⟩

/-- The allocation that a node in use stands for. -/
def allocationOf (entry : NodeId × Nat) : Allocation where
  chunk := { mNode := some entry.1 }
  size := entry.2

theorem Threads.used_apart (threads : Threads allocator layout) :
    ((used layout).map allocationOf).Pairwise (Apart layout) := by
  suffices slots : ∀ before rest, layout = before ++ rest → rest.Pairwise fun left right =>
          Apart layout (allocationOf (left.key, left.size))
            (allocationOf (right.key, right.size)) by
    rw [used, map_map, pairwise_map]
    exact (slots [] layout rfl).filter _
  intro before rest
  induction rest generalizing before with
  | nil =>
    intro _
    exact List.Pairwise.nil
  | cons slot rest ih =>
    intro layoutEq
    refine List.Pairwise.cons ?_ ?_
    · intro other member
      rcases append_of_mem member with ⟨middle, after, restEq⟩
      refine ⟨slot.key, other.key, rfl, rfl, Or.inl ?_⟩
      have slotMark := (threads.slots slot (by simp [layoutEq])).key_mark
      have otherMark := (threads.slots other (by simp [layoutEq, member])).key_mark
      rw [layoutEq, restEq]
      exact Precedes.of_slots slotMark otherMark le_rfl
    · apply ih (before ++ [slot])
      simpa using layoutEq

theorem Threads.used_placed (threads : Threads allocator layout) :
    ∀ allocation ∈ (used layout).map allocationOf, Placed layout allocation := by
  intro allocation member
  rcases mem_map.mp member with ⟨entry, entryMember, rfl⟩
  rcases mem_map.mp entryMember with ⟨slot, slotMember, rfl⟩
  have inLayout := mem_of_mem_filter slotMember
  refine ⟨slot.key, rfl, ?_⟩
  rcases append_of_mem inLayout with ⟨before, after, layoutEq⟩
  have mark := (threads.slots slot inLayout).key_mark
  rw [layoutEq]
  exact Inside.of_slot mark le_rfl

/-! ## The invariant -/

/-- What every state of a session satisfies. -/
structure Session.Sound (session : Session) (layout : Layout NodeId) :
    Prop where
  represents : Represents session.allocator layout
  live : session.live.Perm ((used layout).map allocationOf)
  waiting : session.allocator.mBarrrierFreeChunks = session.deferred.map Allocation.chunk
  closed : session.allocator.mBarrrier = false → session.deferred = []
  made : ∀ allocation ∈ session.made, Placed layout allocation
  apart : ∀ live ∈ session.lives, live.Pairwise (Apart layout)

theorem Session.Sound.record {session : Session}
    (sound : session.Sound layout) : session.record.Sound layout where
  represents := sound.represents
  live := sound.live
  waiting := sound.waiting
  closed := sound.closed
  made := sound.made
  apart := by
    intro live member
    rcases mem_cons.mp member with rfl | earlier
    · refine (sound.live.pairwise_iff ?_).mpr ?_
      · intro first second
        exact Apart.symm
      · exact sound.represents.threads.used_apart
    · exact sound.apart live earlier

section

variable (represents : Represents allocator layout)

include represents

theorem Represents.setBarrier (begun : Bool) (chunks : List MemChunk) :
    Represents { allocator with mBarrrier := begun, mBarrrierFreeChunks := chunks } layout where
  threads := represents.threads.congr (fun _ => ⟨rfl, rfl, rfl, rfl, rfl⟩)
      rfl rfl rfl
  usage := represents.usage
  freeList := represents.freeList
  freeDistinct := represents.freeDistinct
  coalesced := represents.coalesced
  unplanned := represents.unplanned

/-- Giving back one of the chunks in use leaves the others in use. -/
theorem Represents.freeAllocation {rest : List Allocation}
    (live : (allocation :: rest).Perm ((used layout).map allocationOf)) :
    ∃ node layout', allocation.chunk.mNode = some node ∧
        Represents (allocator.freeNode node) layout' ∧
        Still layout layout' ∧
        rest.Perm ((used layout').map allocationOf) := by
  have member := live.subset mem_cons_self
  rcases mem_map.mp member with ⟨entry, entryMember, rfl⟩
  rcases mem_map.mp entryMember with ⟨slot, slotMember, rfl⟩
  rcases mem_filter.mp slotMember with ⟨inLayout, inUse⟩
  have notFree : slot.free = false := by simpa using inUse
  rcases append_of_mem inLayout with ⟨before, after, rfl⟩
  rcases represents.freeNode notFree with
    ⟨layout', represents', still, usedEq⟩
  refine ⟨slot.key, layout', rfl, represents', still, ?_⟩
  rw [used_append, used_cons, notFree] at live
  rw [usedEq]
  simp only [Bool.false_eq_true, if_false, map_append, map_cons] at live ⊢
  exact (live.trans perm_middle).cons_inv

theorem Represents.freeAll (closed : allocator.mBarrrier = false) {held deferred : List Allocation}
    (live : (held ++ deferred).Perm ((used layout).map allocationOf)) :
    ∃ layout', Represents ((deferred.map Allocation.chunk).foldl
            (fun allocator chunk => (allocator.free chunk).2) allocator)
          layout' ∧
        Still layout layout' ∧
        held.Perm ((used layout').map allocationOf) ∧
        ((deferred.map Allocation.chunk).foldl (fun allocator chunk => (allocator.free chunk).2)
            allocator).mBarrrier = false := by
  induction deferred generalizing allocator layout with
  | nil =>
    rw [append_nil] at live
    exact ⟨layout, represents, Still.refl layout, live, closed⟩
  | cons allocation rest ih =>
    have front : (allocation :: (held ++ rest)).Perm ((used layout).map allocationOf) :=
      perm_middle.symm.trans live
    rcases represents.freeAllocation front with
      ⟨node, middle, nodeEq, represented, first, remaining⟩
    have freed : (allocator.free allocation.chunk).2 = allocator.freeNode node := by
      simp [free, closed, nodeEq]
    have stillClosed : (allocator.freeNode node).mBarrrier = false :=
      (congrArg Prod.fst (allocator.freeNode_barrier node)).trans closed
    rcases ih represented stillClosed remaining with
      ⟨last, lastRepresented, second, lastLive, lastClosed⟩
    rw [map_cons, foldl_cons, freed]
    exact ⟨last, lastRepresented, first.trans second, lastLive, lastClosed⟩

end

/-- Every call keeps the session sound, and only `alloc` moves a chunk. -/
theorem Session.Sound.call {session next : Session} {event : Call} (sound : session.Sound layout)
    (taken : session.call event = some next) :
    ∃ layout', next.Sound layout' ∧ (event.isAlloc = false → Still layout layout') := by
  cases event with
  | alloc size separate align =>
    rcases sound.represents.alloc size separate align with
      ⟨node, layout', chunkEq, represents, ⟨shift⟩, usedPerm⟩
    have barrierEq := session.allocator.alloc_barrier size separate align
    cases taken
    refine ⟨layout', Session.Sound.record ?_, nofun⟩
    have newEntry :
        (⟨(session.allocator.alloc size separate align).1,
          session.allocator.roundedSize size align⟩ : Allocation) =
          allocationOf (node, session.allocator.roundedSize size align) := by
      rw [chunkEq]
      rfl
    have livePerm :
        ((⟨(session.allocator.alloc size separate align).1,
            session.allocator.roundedSize size align⟩ : Allocation) ::
          session.live).Perm ((used layout').map allocationOf) := by
      rw [newEntry]
      exact (sound.live.cons _).trans (usedPerm.map allocationOf).symm
    exact
      { represents := represents
        live := livePerm
        waiting := (congrArg Prod.snd barrierEq).trans sound.waiting
        closed := by
          intro closed
          exact sound.closed ((congrArg Prod.fst barrierEq).symm.trans closed)
        made := by
          intro allocation member
          rcases mem_cons.mp member with rfl | earlier
          · exact represents.threads.used_placed _ (livePerm.subset mem_cons_self)
          · exact (sound.made allocation earlier).shift shift
        apart := by
          intro live member
          exact (sound.apart live member).imp fun apart => apart.shift shift }
  | free index =>
    cases given : session.held[index]? with
    | none =>
      simp only [Session.call, given] at taken
      cases taken
    | some allocation =>
      rcases List.getElem?_eq_some_iff.mp given with ⟨bound, atIndex⟩
      have heldPerm : (allocation :: session.held.eraseIdx index).Perm session.held := by
        rw [← atIndex]
        exact getElem_cons_eraseIdx_perm bound
      simp only [Session.call, given] at taken
      cases taken
      cases barrier : session.allocator.mBarrrier with
      | true =>
        have freed :
            (session.allocator.free allocation.chunk).2 =
              { session.allocator with
                mBarrrier := true
                mBarrrierFreeChunks :=
                  session.allocator.mBarrrierFreeChunks ++ [allocation.chunk] } := by
          simp [free, barrier]
        refine ⟨layout, Session.Sound.record ?_, fun _ => Still.refl layout⟩
        rw [freed, if_pos rfl]
        exact
          { represents := sound.represents.setBarrier _ _
            live := by
              refine List.Perm.trans ?_ sound.live
              refine List.Perm.trans ?_ (heldPerm.append_right _)
              show (session.held.eraseIdx index ++ (session.deferred ++ [allocation])).Perm _
              rw [← append_assoc]
              exact perm_append_comm
            waiting := by
              show _ ++ [_] = _
              rw [sound.waiting, map_append]
              rfl
            closed := by
              intro closed
              cases closed
            made := sound.made
            apart := sound.apart }
      | false =>
        have none : session.deferred = [] := sound.closed barrier
        have live : (allocation :: session.held.eraseIdx index).Perm
              ((used layout).map allocationOf) := by
          refine heldPerm.trans ?_
          have live := sound.live
          rw [Session.live, none, append_nil] at live
          exact live
        rcases sound.represents.freeAllocation live with
          ⟨node, layout', nodeEq, represents, still, remaining⟩
        rcases still.shift with ⟨shift⟩
        have freed :
            (session.allocator.free allocation.chunk).2 = session.allocator.freeNode node := by
          simp [free, barrier, nodeEq]
        have barrierEq := session.allocator.freeNode_barrier node
        refine ⟨layout', Session.Sound.record ?_, fun _ => still⟩
        rw [freed, if_neg (by simp)]
        exact
          { represents := represents
            live := by
              rw [Session.live, none, append_nil]
              exact remaining
            waiting := (congrArg Prod.snd barrierEq).trans sound.waiting
            closed := fun _ => none
            made := by
              intro made member
              exact (sound.made made member).shift shift
            apart := by
              intro live member
              exact (sound.apart live member).imp fun apart =>
                  apart.shift shift }
  | barrierBegin =>
    cases taken
    refine ⟨layout, Session.Sound.record ?_, fun _ => Still.refl layout⟩
    exact
      { represents := sound.represents.setBarrier true _
        live := sound.live
        waiting := sound.waiting
        closed := by
          intro closed
          cases closed
        made := sound.made
        apart := sound.apart }
  | barrierEnd =>
    have opened := sound.represents.setBarrier false session.allocator.mBarrrierFreeChunks
    rcases opened.freeAll rfl sound.live with
      ⟨layout', represents, still, live, closed⟩
    rcases still.shift with ⟨shift⟩
    rw [← sound.waiting] at represents closed
    cases taken
    refine ⟨layout', Session.Sound.record ?_, fun _ => still⟩
    exact
      { represents := represents.setBarrier _ []
        live := by
          rw [Session.live, append_nil]
          exact live
        waiting := rfl
        closed := fun _ => rfl
        made := by
          intro made member
          exact (sound.made made member).shift shift
        apart := by
          intro live member
          exact (sound.apart live member).imp fun apart => apart.shift shift }

theorem Session.Sound.empty (head : allocator.mHead = none) (tail : allocator.mTail = none)
    (freeList : allocator.mFreeList = []) (unplanned : allocator.mTotalSize = 0)
    (waiting : allocator.mBarrrierFreeChunks = []) :
    ({ allocator } : Session).Sound [] where
  represents :=
    { threads :=
        { linked := trivial
          head := head
          tail := tail
          distinct := nodup_nil
          created := by
            intro id member
            cases member
          slots := by
            intro slot member
            cases member }
      usage := by
        intro slot member
        cases member
      freeList := by
        intro id
        rw [freeList]
        constructor
        · intro member
          cases member
        · rintro ⟨slot, member, -⟩
          cases member
      freeDistinct := by
        rw [freeList]
        exact nodup_nil
      coalesced := isChain_nil
      unplanned := unplanned }
  live := List.Perm.nil
  waiting := waiting
  closed := fun _ => rfl
  made := by
    intro allocation member
    cases member
  apart := by
    intro live member
    cases member

theorem Session.sound_start (align : Nat) (parent : SingleBufferWithAllocator) :
    (Session.start align parent).Sound [] :=
  Session.Sound.empty rfl rfl rfl rfl rfl

/-! ## The plan is sound -/

/-- Two allocations occupy disjoint byte ranges. -/
def DisjointRanges (allocator : DeferBufferAllocator) (first second : Allocation) : Prop :=
  allocator.chunkOffset first.chunk + first.size ≤ allocator.chunkOffset second.chunk ∨
    allocator.chunkOffset second.chunk + second.size ≤ allocator.chunkOffset first.chunk

section

variable {slot : Slot NodeId}
  (placed : ∀ id relative, (id, relative) ∈ slot.marks → (allocator.mChunks id).offset = relative)

include placed

theorem Apart.disjoint (apart : Apart [slot] first second) :
    DisjointRanges allocator first second := by
  have offsets :
      ∀ {mark index position}, Marked [slot] mark index position →
          (allocator.mChunks mark).offset = position := by
    intro mark index position marked
    have split : Marked ([] ++ slot :: []) mark index position := marked
    rcases split.cases with
      ⟨early, -⟩ | ⟨-, relative, member, rfl⟩ | ⟨later, -, rest, found, -⟩
    · cases early
    · rw [placed mark relative member, total_nil, zero_add]
    · cases found.index_lt
  rcases apart with ⟨left, right, leftEq, rightEq, ordered⟩
  have leftOffset : allocator.chunkOffset first.chunk = (allocator.mChunks left).offset := by
    rw [leftEq]
    rfl
  have rightOffset : allocator.chunkOffset second.chunk = (allocator.mChunks right).offset := by
    rw [rightEq]
    rfl
  rw [DisjointRanges, leftOffset, rightOffset]
  rcases ordered with
    ⟨_, _, _, _, firstMarked, secondMarked, -, bound⟩ |
      ⟨_, _, _, _, secondMarked, firstMarked, -, bound⟩
  · left
    rw [offsets firstMarked, offsets secondMarked]
    exact bound
  · right
    rw [offsets firstMarked, offsets secondMarked]
    exact bound

theorem Placed.bounded (inside : Placed [slot] allocation) :
    allocator.chunkOffset allocation.chunk + allocation.size ≤ slot.size := by
  rcases inside with ⟨node, chunkEq, index, position, marked, bound⟩
  have split : Marked ([] ++ slot :: []) node index position := marked
  have offset : allocator.chunkOffset allocation.chunk = position := by
    rw [chunkEq]
    show (allocator.mChunks node).offset = position
    rcases split.cases with
      ⟨early, -⟩ | ⟨-, relative, member, rfl⟩ | ⟨later, -, rest, found, -⟩
    · cases early
    · rw [placed node relative member, total_nil, zero_add]
    · cases found.index_lt
  rw [offset]
  simpa using bound

end

/-- Two chunks, the second freed inside a barrier, then a reuse that expands. -/
def expandingCalls : List Call :=
  [.alloc 10 false 0, .alloc 6 false 0, .barrierBegin, .free 0, .barrierEnd,
    .alloc 20 false 0, .free 0, .free 0]

end Mnn.Core.BufferAllocator
