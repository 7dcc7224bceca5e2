import Mnn.Core.DeferBufferAllocator

/-!
# The eager buffer allocator

`EagerBufferAllocator` obtains blocks from an outer allocator and splits them
into nodes with a pointer to their parent.  A node is merged back when its
`useCount` falls to zero.  Free nodes wait in the main free list, or, while a
group is open, in the list of that group.

`SharedPtr<Node>` objects are node numbers in order of creation.  A root node
dies, and its block goes back to the outer allocator, when no listed node can
reach it any more; `sweep` does this at the end of every call.  Sizes are
natural numbers except where the source subtracts what may be larger:
`subSize` wraps around as `size_t` does.  A call that divides by an alignment
of zero has no result.
-/

namespace Mnn.Core.BufferAllocator

/-- `std::pair<void*, size_t>`; the null pointer is zero. -/
abbrev Pointer := Nat × Nat

instance pointer_lawfulBEq : LawfulBEq Pointer := inferInstance

/-- Subtraction of `size_t` values. -/
def subSize (left right : Nat) : Nat :=
  if right ≤ left then left - right else left + 2 ^ 64 - right

/-- `EagerBufferAllocator::Node`. -/
structure EagerNode where
  pointer : Pointer := (0, 0)
  parent : Option NodeId := none
  size : Nat := 0
  useCount : Nat := 0
  deriving DecidableEq, Repr

/-- `FREELIST*`: the main free list or the list of one group. -/
inductive FreeListPtr where
  | main
  | group (index : Nat)
  deriving DecidableEq, Repr

/--
The allocator.  A `FREELIST` lists node numbers in the order of the multimap,
whose keys are the sizes of the nodes.  `blocks` are the root nodes still
alive, `released` those handed back through `onRelease`.
-/
structure EagerBufferAllocator where
  nodes : NodeId → EagerNode := fun _ => {}
  nodeCount : Nat := 0
  mUsedList : List (Pointer × NodeId) := []
  mFreeList : List NodeId := []
  mCurrentFreeList : Option Nat := none
  mGroups : List (List NodeId) := []
  mAlign : Nat
  mMinAllocSize : Nat := 0
  mTotalSize : Nat := 0
  blocks : List NodeId := []
  released : List NodeId := []

namespace EagerBufferAllocator

/-! ## Nodes and lists -/

/-- Make a new node. -/
def newNode (allocator : EagerBufferAllocator) (node : EagerNode) : NodeId × EagerBufferAllocator :=
  (allocator.nodeCount,
    { allocator with
      nodes := Function.update allocator.nodes allocator.nodeCount node
      nodeCount := allocator.nodeCount + 1 })

def setUseCount (allocator : EagerBufferAllocator) (id : NodeId) (useCount : Nat) :
    EagerBufferAllocator :=
  { allocator with
    nodes := Function.update allocator.nodes id { allocator.nodes id with useCount := useCount } }

/-- The list behind a pointer. -/
def freeList (allocator : EagerBufferAllocator) : FreeListPtr → List NodeId
  | .main => allocator.mFreeList
  | .group index => allocator.mGroups.getD index []

def setFreeList (allocator : EagerBufferAllocator) (list : List NodeId) :
    FreeListPtr → EagerBufferAllocator
  | .main => { allocator with mFreeList := list }
  | .group index =>
    { allocator with mGroups := allocator.mGroups.set index list }

/-- `multimap::insert`: behind every key that is not larger. -/
def insertBySize (allocator : EagerBufferAllocator) (id : NodeId) (list : List NodeId) :
    List NodeId :=
  let smaller := fun other =>
    decide ((allocator.nodes other).size ≤ (allocator.nodes id).size)
  list.takeWhile smaller ++ id :: list.dropWhile smaller

def insertFree (allocator : EagerBufferAllocator) (list : FreeListPtr) (id : NodeId) :
    EagerBufferAllocator :=
  allocator.setFreeList (allocator.insertBySize id (allocator.freeList list)) list

def eraseFree (allocator : EagerBufferAllocator) (list : FreeListPtr) (id : NodeId) :
    EagerBufferAllocator :=
  allocator.setFreeList ((allocator.freeList list).erase id) list

/-- `mUsedList.insert`, which keeps an entry that is already there. -/
def insertUsed (allocator : EagerBufferAllocator) (pointer : Pointer) (id : NodeId) :
    EagerBufferAllocator :=
  if pointer ∈ allocator.mUsedList.map Prod.fst then
    allocator
  else
    { allocator with mUsedList := (pointer, id) :: allocator.mUsedList }

/-- `mUsedList[pointer] = id`. -/
def assignUsed (allocator : EagerBufferAllocator) (pointer : Pointer) (id : NodeId) :
    EagerBufferAllocator :=
  { allocator with
    mUsedList := (pointer, id) :: allocator.mUsedList.filter fun entry => entry.1 ≠ pointer }

/-- `mUsedList.find`. -/
def findUsed (allocator : EagerBufferAllocator) (pointer : Pointer) : Option NodeId :=
  allocator.mUsedList.lookup pointer

/-- `mUsedList.erase`. -/
def eraseUsed (allocator : EagerBufferAllocator) (pointer : Pointer) :
    EagerBufferAllocator :=
  { allocator with
    mUsedList := allocator.mUsedList.filter fun entry => entry.1 ≠ pointer }

/-- The root above a node. -/
def rootOf (allocator : EagerBufferAllocator) : Nat → NodeId → NodeId
  | 0, id => id
  | fuel + 1, id =>
    match (allocator.nodes id).parent with
    | none => id
    | some parent => rootOf allocator fuel parent

/-- The nodes which `mUsedList` and the free lists refer to. -/
def listed (allocator : EagerBufferAllocator) : List NodeId :=
  allocator.mUsedList.map Prod.snd ++ allocator.mFreeList ++ allocator.mGroups.flatten

/-- `~Node` of every root which lost its last reference. -/
def sweep (allocator : EagerBufferAllocator) : EagerBufferAllocator :=
  let roots :=
    allocator.listed.map (allocator.rootOf allocator.nodeCount)
  { allocator with
    blocks := allocator.blocks.filter fun block => block ∈ roots
    released := allocator.released ++ allocator.blocks.filter fun block => block ∉ roots }

/-! ## The interface -/

/-- `x->second->parent->useCount += 1`, if there is a parent. -/
def useParent (allocator : EagerBufferAllocator) (x : NodeId) : EagerBufferAllocator :=
  match (allocator.nodes x).parent with
  | some parent =>
    allocator.setUseCount parent ((allocator.nodes parent).useCount + 1)
  | none => allocator

/-- Split a free node: the first part is used, the second one stays free. -/
def splitFree (allocator : EagerBufferAllocator) (list : FreeListPtr) (x : NodeId)
    (pointer : Pointer) (sizeAlign : Nat) : EagerBufferAllocator :=
  let node := allocator.nodes x
  let (first, allocator) :=
    allocator.newNode { parent := some x, size := sizeAlign, pointer := node.pointer }
  let allocator := allocator.insertUsed pointer first
  let allocator :=
    allocator.setUseCount x ((allocator.nodes x).useCount + 1)
  let (second, allocator) :=
    allocator.newNode
      { parent := some x
        size := node.size - sizeAlign
        pointer := (node.pointer.1, node.pointer.2 + sizeAlign) }
  let allocator := allocator.eraseFree list x
  allocator.insertFree list second

/-- Round the offset up where `mAlign` is no multiple of the alignment. -/
def alignOffset (allocator : EagerBufferAllocator) (pointer : Pointer) (align : Nat) :
    Pointer :=
  if allocator.mAlign % align ≠ 0 then
    (pointer.1, upDiv pointer.2 align * align)
  else
    pointer

/-- Search a free list; the null pointer means that no node is large enough. -/
def getFromFreeList (allocator : EagerBufferAllocator) (list : FreeListPtr) (size : Nat)
    (permiteSplit : Bool) (align : Nat) :
    Option (Pointer × EagerBufferAllocator) :=
  if align = 0 then
    none
  else
    let needExtraSize := allocator.mAlign % align ≠ 0
    let realSize := if needExtraSize then size + align - 1 else size
    match
      (allocator.freeList list).find? fun id =>
        decide (realSize ≤ (allocator.nodes id).size) with
    | none => some ((0, 0), allocator)
    | some x =>
      if allocator.mAlign = 0 then
        none
      else
        let node := allocator.nodes x
        let pointer := allocator.alignOffset node.pointer align
        let realSize :=
          if needExtraSize then size + pointer.2 - node.pointer.2 else size
        let allocator :=
          if permiteSplit then allocator.useParent x else allocator
        let sizeAlign := upDiv realSize allocator.mAlign * allocator.mAlign
        if sizeAlign ≥ node.size ∨ permiteSplit = false then
          some (pointer, (allocator.insertUsed pointer x).eraseFree list x)
        else
          some (pointer, allocator.splitFree list x pointer sizeAlign)

/-- The size that is asked of the outer allocator. -/
def allocSize (allocator : EagerBufferAllocator) (size : Nat) : Nat :=
  if allocator.mMinAllocSize ≠ 0 then
    max allocator.mMinAllocSize size
  else
    size

/-- Split a new block whose root is `node`; `size` is what the client takes. -/
def splitBlock (allocator : EagerBufferAllocator) (node : NodeId) (chunk : Pointer)
    (allocSize size : Nat) : EagerBufferAllocator :=
  let (first, allocator) :=
    allocator.newNode { parent := some node, size := size, pointer := chunk }
  let allocator := allocator.insertUsed chunk first
  let allocator := allocator.setUseCount node 1
  let (second, allocator) :=
    allocator.newNode
      { parent := some node
        size := subSize allocSize size
        pointer := (chunk.1, chunk.2 + size) }
  match allocator.mCurrentFreeList with
  | some group => allocator.insertFree (.group group) second
  | none => allocator.insertFree .main second

/-- Count a new block and make its root node. -/
def obtainBlock (allocator : EagerBufferAllocator) (allocSize : Nat) (chunk : Pointer) :
    EagerBufferAllocator :=
  let (node, allocator) :=
    allocator.newNode { size := allocSize, pointer := chunk }
  { allocator with
    mTotalSize := allocator.mTotalSize + allocSize
    blocks := node :: allocator.blocks }

/--
The part of `alloc` behind the free lists; `chunk` is the answer of the outer
allocator.
-/
def allocOutside (allocator : EagerBufferAllocator) (size : Nat) (chunk : Pointer) :
    Option (Pointer × EagerBufferAllocator) :=
  let allocSize := allocator.allocSize size
  if chunk.1 = 0 then
    some (chunk, allocator)
  else
    let node := allocator.nodeCount
    let allocator := allocator.obtainBlock allocSize chunk
    if allocSize > size then
      if allocator.mAlign = 0 then
        none
      else
        let size := upDiv size allocator.mAlign * allocator.mAlign
        some (chunk, allocator.splitBlock node chunk allocSize size)
    else
      some (chunk, allocator.assignUsed chunk node)

def alloc (allocator : EagerBufferAllocator) (size : Nat) (separate : Bool)
    (align : Nat) (chunk : Pointer) :
    Option (Pointer × EagerBufferAllocator) :=
  let align := if align = 0 then allocator.mAlign else align
  if separate then
    allocator.allocOutside size chunk
  else
    match allocator.mCurrentFreeList with
    | none =>
      match allocator.getFromFreeList .main size true align with
      | none => none
      | some (pointer, allocator) =>
        if pointer.1 ≠ 0 then
          some (pointer, allocator)
        else
          allocator.allocOutside size chunk
    | some group =>
      match allocator.getFromFreeList (.group group) size false align with
      | none => none
      | some (pointer, allocator) =>
        if pointer.1 ≠ 0 then
          some (pointer, allocator)
        else
          match allocator.getFromFreeList .main size true align with
          | none => none
          | some (pointer, allocator) =>
            if pointer.1 ≠ 0 then
              some (pointer, allocator)
            else
              allocator.allocOutside size chunk

/-- The part of `alloc` that searches the main free list. -/
def allocMain (allocator : EagerBufferAllocator) (size align : Nat) (chunk : Pointer) :
    Option (Pointer × EagerBufferAllocator) :=
  match allocator.getFromFreeList .main size true align with
  | none => none
  | some (pointer, allocator) =>
    if pointer.1 ≠ 0 then
      some (pointer, allocator)
    else
      allocator.allocOutside size chunk

/-- The loop of `returnMemory`; it climbs from parent to parent. -/
def mergeUp : Nat → EagerBufferAllocator → FreeListPtr → NodeId → EagerBufferAllocator
  | 0, allocator, _, _ => allocator
  | fuel + 1, allocator, list, parent =>
    let allocator :=
      allocator.setFreeList ((allocator.freeList list).filter fun id =>
          (allocator.nodes id).parent ≠ some parent) list
    let allocator := allocator.insertFree list parent
    match (allocator.nodes parent).parent with
    | none => allocator
    | some parent =>
      let useCount := subSize (allocator.nodes parent).useCount 1
      let allocator := allocator.setUseCount parent useCount
      if useCount = 0 then
        mergeUp fuel allocator list parent
      else
        allocator

def returnMemory (allocator : EagerBufferAllocator) (list : FreeListPtr) (node : NodeId)
    (permitMerge : Bool) : EagerBufferAllocator :=
  let allocator := allocator.insertFree list node
  match (allocator.nodes node).parent, permitMerge with
  | some parent, true =>
    let useCount := subSize (allocator.nodes parent).useCount 1
    let allocator := allocator.setUseCount parent useCount
    if useCount = 0 then
      mergeUp allocator.nodeCount allocator list parent
    else
      allocator
  | _, _ => allocator

def free (allocator : EagerBufferAllocator) (pointer : Pointer) : Bool × EagerBufferAllocator :=
  match allocator.findUsed pointer with
  | none => (false, allocator)
  | some node =>
    let allocator := allocator.eraseUsed pointer
    match allocator.mCurrentFreeList with
    | some group => (true, allocator.returnMemory (.group group) node false)
    | none => (true, allocator.returnMemory .main node true)

/-- `release(false)`: hand back every root in the free list. -/
def release (allocator : EagerBufferAllocator) : EagerBufferAllocator :=
  let isRoot := fun id => (allocator.nodes id).parent = none
  { allocator with
    mTotalSize := (allocator.mFreeList.filter isRoot).foldl
        (fun total id => subSize total (allocator.nodes id).size)
        allocator.mTotalSize
    mFreeList := allocator.mFreeList.filter fun id => ¬isRoot id }

/-- `release(true)`. -/
def releaseAll (allocator : EagerBufferAllocator) : EagerBufferAllocator :=
  { allocator with mUsedList := [], mFreeList := [], mTotalSize := 0 }

def barrierEnd (allocator : EagerBufferAllocator) : EagerBufferAllocator :=
  let returned :=
    allocator.mGroups.flatten.foldl
      (fun allocator node => allocator.returnMemory .main node true) allocator
  { returned with mGroups := [] }

def beginGroup (allocator : EagerBufferAllocator) : EagerBufferAllocator :=
  { allocator with
    mCurrentFreeList := some allocator.mGroups.length
    mGroups := allocator.mGroups ++ [[]] }

def endGroup (allocator : EagerBufferAllocator) : EagerBufferAllocator :=
  { allocator with mCurrentFreeList := none }

end EagerBufferAllocator

end Mnn.Core.BufferAllocator
