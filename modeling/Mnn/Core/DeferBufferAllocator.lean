import Mathlib

/-!
# The deferred buffer allocator

`DeferBufferAllocator` plans memory before there is any.  An allocation is a
`MemNode` in a doubly linked list; freed nodes wait in a multiset ordered by
size, neighbours are fused, and only `compute` fixes offsets and obtains the
buffer behind all of them.

The heap of `MemNode` objects is a function from node numbers, in the order
in which `createMemNode` makes them; pointers are optional node numbers.
Sizes are natural numbers: `size_t` overflow is not modelled.  The functions
are translated in the order of the source file.
-/

namespace Mnn.Core.BufferAllocator

/-- The place of a `MemNode` in `mChunks`. -/
abbrev NodeId := Nat

/-- A tensor which registered itself with a chunk. -/
abbrev TensorId := Nat

inductive ErrorCode where
  | noError
  | outOfMemory
  | invalidValue
  deriving DecidableEq, Repr

def upDiv (x y : Nat) : Nat := (x + y - 1) / y

structure MemNode where
  size : Nat
  offset : Nat := 0
  base : Nat := 0
  usage : Bool := true
  left : Option NodeId := none
  right : Option NodeId := none
  children : List NodeId := []
  tensors : List TensorId := []
  deriving DecidableEq, Repr

/-- A memory chunk: an address with an offset, or a planned node. -/
structure MemChunk where
  first : Nat := 0
  second : Nat := 0
  mNode : Option NodeId := none
  deriving DecidableEq, Repr

/-- The one buffer behind the plan, with what has been handed back to `root`. -/
structure SingleBufferWithAllocator where
  current : MemChunk := {}
  currentSize : Nat := 0
  released : List MemChunk := []
  deriving DecidableEq, Repr

/-- `onAlloc` is the `root` allocator's answer to this request. -/
def SingleBufferWithAllocator.realloc (buffer : SingleBufferWithAllocator)
    (onAlloc : Nat → Nat → MemChunk) (size align : Nat) :
    ErrorCode × SingleBufferWithAllocator :=
  if buffer.currentSize < size then
    let released :=
      if buffer.current.first ≠ 0 then
        buffer.released ++ [buffer.current]
      else
        buffer.released
    let current := onAlloc size align
    if current.first = 0 then
      (.outOfMemory, { buffer with current, released })
    else
      (.noError, { current, currentSize := size, released })
  else
    (.noError, buffer)

/--
The allocator.  `mFreeList` lists the multiset of free nodes in its iteration
order; `applied` records the calls of `mApplyFunction`.
-/
structure DeferBufferAllocator where
  mChunks : NodeId → MemNode := fun _ => { size := 0 }
  chunkCount : Nat := 0
  mHead : Option NodeId := none
  mTail : Option NodeId := none
  mFreeList : List NodeId := []
  mPtr : MemChunk := {}
  mAlign : Nat
  mBarrrier : Bool := false
  mBarrrierFreeChunks : List MemChunk := []
  mTotalSize : Nat := 0
  mParent : SingleBufferWithAllocator := {}
  applied : List (Nat × Nat × TensorId) := []

namespace DeferBufferAllocator

/-- Assign to fields of the node behind a pointer. -/
def modify (allocator : DeferBufferAllocator) (id : NodeId)
    (change : MemNode → MemNode) : DeferBufferAllocator :=
  { allocator with
    mChunks := Function.update allocator.mChunks id (change (allocator.mChunks id)) }

/-- `MemChunk::base`. -/
def chunkBase (allocator : DeferBufferAllocator) (chunk : MemChunk) : Nat :=
  match chunk.mNode with
  | some node => (allocator.mChunks node).base
  | none => chunk.first

/-- `MemChunk::offset`. -/
def chunkOffset (allocator : DeferBufferAllocator) (chunk : MemChunk) : Nat :=
  match chunk.mNode with
  | some node => (allocator.mChunks node).offset + chunk.second
  | none => chunk.second

/-- `MemChunk::ptr`. -/
def chunkPtr (allocator : DeferBufferAllocator) (chunk : MemChunk) : Nat :=
  match chunk.mNode with
  | some node =>
    (allocator.mChunks node).base + (allocator.mChunks node).offset + chunk.second
  | none => chunk.first + chunk.second

def attach (allocator : DeferBufferAllocator) (chunk : MemChunk)
    (tensor : TensorId) : DeferBufferAllocator :=
  match chunk.mNode with
  | some node =>
    allocator.modify node fun memNode =>
      { memNode with tensors := memNode.tensors ++ [tensor] }
  | none => allocator

def totalSize (allocator : DeferBufferAllocator) : Nat := allocator.mTotalSize

/-! ## List and multiset primitives -/

def createMemNode (allocator : DeferBufferAllocator) (size : Nat) : NodeId × DeferBufferAllocator :=
  (allocator.chunkCount,
    { allocator with
      mChunks := Function.update allocator.mChunks allocator.chunkCount { size := size }
      chunkCount := allocator.chunkCount + 1 })

def eraseNode (allocator : DeferBufferAllocator) (chunk : NodeId) :
    DeferBufferAllocator :=
  match (allocator.mChunks chunk).left, (allocator.mChunks chunk).right with
  | some left, some right =>
    (allocator.modify left fun node =>
        { node with right := some right }).modify right
      fun node => { node with left := some left }
  | some left, none =>
    { allocator.modify left fun node => { node with right := none } with
      mTail := some left }
  | none, some right =>
    { allocator.modify right fun node => { node with left := none } with
      mHead := some right }
  | none, none => { allocator with mHead := none, mTail := none }

def fuseToLeft (allocator : DeferBufferAllocator) (left right : NodeId) :
    NodeId × DeferBufferAllocator :=
  let allocator :=
    allocator.modify right fun node =>
      { node with offset := (allocator.mChunks left).size }
  let allocator :=
    allocator.modify left fun node =>
      { node with
        size := node.size + (allocator.mChunks right).size
        children := node.children ++ [right] }
  (left, allocator.eraseNode right)

/-- `insert_after` behind `pos`, or at the end of the list. -/
def insertAfter (allocator : DeferBufferAllocator) (chunk : NodeId)
    (pos : Option NodeId) : DeferBufferAllocator :=
  match pos with
  | some pos =>
    let right := (allocator.mChunks pos).right
    let allocator :=
      match right with
      | some right =>
        allocator.modify right fun node => { node with left := some chunk }
      | none => allocator
    let allocator :=
      allocator.modify chunk fun node =>
        { node with right := right, left := some pos }
    let allocator :=
      allocator.modify pos fun node => { node with right := some chunk }
    if allocator.mTail = some pos then
      { allocator with mTail := some chunk }
    else
      allocator
  | none =>
    match allocator.mTail with
    | some tail =>
      let allocator :=
        allocator.modify tail fun node => { node with right := some chunk }
      let allocator :=
        allocator.modify chunk fun node => { node with left := some tail }
      { allocator with mTail := some chunk }
    | none => { allocator with mHead := some chunk, mTail := some chunk }

/-- Insertion into the multiset: behind every node that is not larger. -/
def insertFree (allocator : DeferBufferAllocator) (chunk : NodeId) :
    DeferBufferAllocator :=
  let size := (allocator.mChunks chunk).size
  let smaller := fun id => decide ((allocator.mChunks id).size ≤ size)
  { allocator with
    mFreeList :=
      allocator.mFreeList.takeWhile smaller ++
        chunk :: allocator.mFreeList.dropWhile smaller }

/-- Remove one node out of those that compare equal to it. -/
def eraseFree (allocator : DeferBufferAllocator) (chunk : NodeId) :
    DeferBufferAllocator :=
  { allocator with mFreeList := allocator.mFreeList.erase chunk }

/-- `lower_bound`, or the last node when every free node is smaller. -/
def selectFree (allocator : DeferBufferAllocator) (size : Nat) : Option NodeId :=
  (allocator.mFreeList.find? fun id =>
    decide (size ≤ (allocator.mChunks id).size)).or allocator.mFreeList.getLast?

/-! ## The interface -/

/-- The size which a request takes up: `UP_DIV(size, align) * align`. -/
def roundedSize (allocator : DeferBufferAllocator) (size align : Nat) : Nat :=
  let align := if align = 0 then allocator.mAlign else align
  upDiv size align * align

/-- Split `[####]` to `[###]->[#]`; the caller shortens the left part. -/
def splitRest (allocator : DeferBufferAllocator) (select : NodeId) (rest : Nat) :
    DeferBufferAllocator :=
  let (restChunk, allocator) := allocator.createMemNode rest
  let allocator :=
    allocator.modify restChunk fun node => { node with usage := false }
  let allocator := allocator.insertAfter restChunk (some select)
  allocator.insertFree restChunk

/-- Take a node out of the free list, cutting off what is not needed. -/
def reuse (allocator : DeferBufferAllocator) (select : NodeId) (size : Nat) :
    DeferBufferAllocator :=
  let allocator := allocator.eraseFree select
  let allocator :=
    allocator.modify select fun node => { node with usage := true }
  let available := (allocator.mChunks select).size
  let allocator :=
    if available > size then
      allocator.splitRest select (available - size)
    else
      allocator
  allocator.modify select fun node => { node with size := size }

def alloc (allocator : DeferBufferAllocator) (size : Nat) (separate : Bool)
    (align : Nat) : MemChunk × DeferBufferAllocator :=
  let size := allocator.roundedSize size align
  match separate, allocator.selectFree size with
  | false, some select =>
    ({ mNode := some select }, allocator.reuse select size)
  | _, _ =>
    let (chunk, allocator) := allocator.createMemNode size
    ({ mNode := some chunk }, allocator.insertAfter chunk none)

/-- Fuse a node into its left neighbour if that is free. -/
def fuseFreeLeft (allocator : DeferBufferAllocator) (node : NodeId)
    (left : Option NodeId) : NodeId × DeferBufferAllocator :=
  match left with
  | some left =>
    if (allocator.mChunks left).usage then
      (node, allocator)
    else
      (allocator.eraseFree left).fuseToLeft left node
  | none => (node, allocator)

/-- Fuse the right neighbour into a node if the neighbour is free. -/
def fuseFreeRight (allocator : DeferBufferAllocator) (node : NodeId)
    (right : Option NodeId) : NodeId × DeferBufferAllocator :=
  match right with
  | some right =>
    if (allocator.mChunks right).usage then
      (node, allocator)
    else
      (allocator.eraseFree right).fuseToLeft node right
  | none => (node, allocator)

/-- The part of `free` which gives a node back. -/
def freeNode (allocator : DeferBufferAllocator) (node : NodeId) :
    DeferBufferAllocator :=
  let left := (allocator.mChunks node).left
  let right := (allocator.mChunks node).right
  let (node, allocator) := allocator.fuseFreeLeft node left
  let (node, allocator) := allocator.fuseFreeRight node right
  let allocator :=
    allocator.modify node fun memNode => { memNode with usage := false }
  allocator.insertFree node

def free (allocator : DeferBufferAllocator) (chunk : MemChunk) : Bool × DeferBufferAllocator :=
  if allocator.mBarrrier then
    (true,
      { allocator with
        mBarrrierFreeChunks := allocator.mBarrrierFreeChunks ++ [chunk] })
  else
    match chunk.mNode with
    | none => (false, allocator)
    | some node => (true, allocator.freeNode node)

def barrierBegin (allocator : DeferBufferAllocator) : DeferBufferAllocator :=
  { allocator with mBarrrier := true }

def barrierEnd (allocator : DeferBufferAllocator) : DeferBufferAllocator :=
  let opened := { allocator with mBarrrier := false }
  let freed :=
    opened.mBarrrierFreeChunks.foldl (fun allocator chunk => (allocator.free chunk).2) opened
  { freed with mBarrrierFreeChunks := [] }

def reset (allocator : DeferBufferAllocator) : DeferBufferAllocator :=
  { allocator with
    mTotalSize := 0
    mChunks := fun _ => { size := 0 }
    chunkCount := 0
    mFreeList := []
    mPtr := { allocator.mPtr with first := 0, second := 0 }
    mHead := none
    mTail := none
    mBarrrier := false
    mBarrrierFreeChunks := [] }

/-! ## Fixing the offsets -/

/--
`visiChildren`.  The recursion of the source descends a finite forest; `fuel`
bounds its depth.
-/
def visiChildren : Nat → DeferBufferAllocator → NodeId → DeferBufferAllocator
  | 0, allocator, _ => allocator
  | fuel + 1, allocator, chunk =>
    (allocator.mChunks chunk).children.foldl (fun allocator child =>
        visiChildren fuel (allocator.modify child fun node =>
            { node with
              offset := node.offset + (allocator.mChunks chunk).offset })
          child)
      allocator

/-- The loop of `compute` over the list of nodes. -/
def layOut : Nat → DeferBufferAllocator → Option NodeId → DeferBufferAllocator
  | 0, allocator, _ => allocator
  | _ + 1, allocator, none => allocator
  | fuel + 1, allocator, some chunk =>
    let allocator :=
      allocator.modify chunk fun node =>
        { node with offset := allocator.mTotalSize }
    let allocator := visiChildren allocator.chunkCount allocator chunk
    let allocator :=
      { allocator with
        mTotalSize := allocator.mTotalSize + (allocator.mChunks chunk).size }
    layOut fuel allocator (allocator.mChunks chunk).right

/-- The last loop of `apply`: give every node its base, every tensor its place. -/
def applyChunks (allocator : DeferBufferAllocator) : DeferBufferAllocator :=
  (List.range allocator.chunkCount).foldl (fun allocator id =>
      let allocator :=
        allocator.modify id fun node =>
          { node with base := allocator.chunkPtr allocator.mPtr }
      { allocator with
        applied := allocator.applied ++ (allocator.mChunks id).tensors.map fun tensor =>
              (allocator.chunkBase allocator.mPtr, (allocator.mChunks id).offset +
                  allocator.chunkOffset allocator.mPtr,
                tensor) })
    allocator

def apply (allocator : DeferBufferAllocator)
    (onAlloc : Nat → Nat → MemChunk) : ErrorCode × DeferBufferAllocator :=
  if allocator.mFreeList = [] then
    (.noError, allocator)
  else if allocator.mParent.currentSize < allocator.mTotalSize then
    match
      allocator.mParent.realloc onAlloc allocator.mTotalSize allocator.mAlign with
    | (.noError, parent) =>
      (.noError, applyChunks { allocator with mParent := parent, mPtr := parent.current })
    | (code, parent) => (code, { allocator with mParent := parent })
  else if
    allocator.mPtr.first ≠ allocator.mParent.current.first ∨
      allocator.mPtr.second ≠ allocator.mParent.current.second then
    (.noError, applyChunks { allocator with mPtr := allocator.mParent.current })
  else
    (.noError, allocator)

def compute (allocator : DeferBufferAllocator)
    (onAlloc : Nat → Nat → MemChunk) : ErrorCode × DeferBufferAllocator :=
  if allocator.mTotalSize > 0 then
    (.noError, allocator)
  else if allocator.mFreeList = [] then
    (.noError, allocator)
  else if
    allocator.mFreeList.length ≠ 1 ∨ allocator.mHead ≠ allocator.mTail then
    (.invalidValue, allocator)
  else
    (layOut allocator.chunkCount allocator allocator.mHead).apply onAlloc

end DeferBufferAllocator

end Mnn.Core.BufferAllocator
