import Mnn.Core.DeferErrors

/-!
# Alignment in the deferred plan

`alloc` rounds the size of a request up to a multiple of its alignment, and
nothing else looks at the alignment.  A chunk lies where the slots before it end,
so that it is aligned only if these happen to fill a multiple; and it moves by as
much as a reused node before it grows.

The layout behind an allocator is computed here, so that both can be asked before
a call.
-/

variable {onAlloc : Nat → Nat → MemChunk}

namespace Mnn.Core.BufferAllocator

open Mnn.Foundation.LinearLayout
open Mnn.Foundation.LinkedList
open Mnn.Foundation.Runs
open List

/-! ## The layout of an allocator -/

/-- The nodes fused below a list of siblings, with their distances. -/
def marksOf (chunks : NodeId → MemNode) : Nat → List NodeId → List (NodeId × Nat)
  | 0, _ => []
  | fuel + 1, kids =>
    kids.flatMap fun kid =>
      shiftMarks (chunks kid).offset ((kid, 0) :: marksOf chunks fuel (chunks kid).children)

variable {chunks : NodeId → MemNode}

theorem KidMarks.marksOf_eq {kids : List NodeId}
    {marks : List (NodeId × Nat)} (kidMarks : KidMarks chunks kids marks) {fuel : Nat}
    (enough : marks.length ≤ fuel) : marksOf chunks fuel kids = marks := by
  induction kidMarks generalizing fuel with
  | nil => cases fuel <;> rfl
  | @cons kid kids below others inner outer innerIH outerIH =>
    simp only [shiftMarks, length_append, length_map, length_cons] at enough
    cases fuel with
    | zero => omega
    | succ fuel =>
      rw [marksOf, flatMap_cons, innerIH (by omega), ← marksOf, outerIH (by omega)]

/-- The slot that a node of the list stands for. -/
def slotOf (allocator : DeferBufferAllocator) (id : NodeId) : Slot NodeId where
  key := id
  size := (allocator.mChunks id).size
  free := !(allocator.mChunks id).usage
  marks := (id, 0) :: marksOf allocator.mChunks allocator.chunkCount (allocator.mChunks id).children

/-- The nodes of the list, from a pointer to its end. -/
def chainOf (chunks : NodeId → MemNode) : Nat → Option NodeId → List NodeId
  | 0, _ => []
  | _ + 1, none => []
  | fuel + 1, some id => id :: chainOf chunks fuel (chunks id).right

/-- The layout that the list of an allocator stands for. -/
def layoutOf (allocator : DeferBufferAllocator) : Layout NodeId :=
  (chainOf allocator.mChunks allocator.chunkCount allocator.mHead).map (slotOf allocator)

theorem chainOf_linked {previous : Option NodeId}
    {ids : List NodeId} {fuel : Nat} (enough : ids.length ≤ fuel)
    (linked : Linked (fun id => (chunks id).left) (fun id => (chunks id).right) previous ids none) :
    chainOf chunks fuel ids.head? = ids := by
  induction ids generalizing previous fuel with
  | nil => cases fuel <;> rfl
  | cons id rest ih =>
    rcases linked with ⟨-, rightEq, linkedRest⟩
    have next : (chunks id).right = rest.head? := rightEq.trans Option.or_none
    cases fuel with
    | zero => exact absurd enough (Nat.not_succ_le_zero _)
    | succ fuel =>
      show id :: chainOf chunks fuel (chunks id).right = id :: rest
      rw [next, ih (Nat.le_of_succ_le_succ enough) linkedRest]

variable {layout : Layout NodeId} {allocator : DeferBufferAllocator}

/-- Distinct nodes that were created are not more than were created. -/
theorem Threads.length_nodes_le (threads : Threads allocator layout) :
    (nodes layout).length ≤ allocator.chunkCount := by
  have contained : nodes layout ⊆ List.range allocator.chunkCount := by
    intro id member
    exact mem_range.mpr (threads.created id member)
  have lengths := (subperm_of_subset threads.distinct contained).length_le
  rw [length_range] at lengths
  exact lengths

theorem keys_sublist (areSlots : ∀ slot ∈ layout, RepresentsSlot chunks slot) :
    List.Sublist (keys layout) (nodes layout) := by
  induction layout with
  | nil => exact List.Sublist.refl _
  | cons slot rest ih =>
    rcases (areSlots slot mem_cons_self).marks with ⟨below, -, marksEq⟩
    rw [keys_cons, nodes_cons, marksEq, map_cons, cons_append]
    refine List.Sublist.cons_cons _ (List.Sublist.trans ?_ (sublist_append_right ..))
    exact ih fun other member => areSlots other (mem_cons_of_mem _ member)

theorem Represents.slotOf_eq (represents : Represents allocator layout)
    {slot : Slot NodeId} (isSlot : slot ∈ layout) : slotOf allocator slot.key = slot := by
  have threads := represents.threads
  have slotRep := threads.slots slot isSlot
  rcases slotRep.marks with ⟨below, kidMarks, marksEq⟩
  have bounded : below.length ≤ allocator.chunkCount := by
    have part : List.Sublist (slot.marks.map Prod.fst) (nodes layout) :=
      sublist_flatten_of_mem (mem_map_of_mem isSlot)
    have lengths := part.length_le.trans threads.length_nodes_le
    rw [marksEq, map_cons, length_cons, length_map] at lengths
    omega
  have free : (!(allocator.mChunks slot.key).usage) = slot.free := by
    rw [represents.usage slot isSlot, Bool.not_not]
  rw [slotOf, slotRep.size, free, kidMarks.marksOf_eq bounded, ← marksEq]

theorem Represents.layoutOf_eq (represents : Represents allocator layout) :
    layoutOf allocator = layout := by
  have threads := represents.threads
  have enough : (keys layout).length ≤ allocator.chunkCount :=
    (keys_sublist threads.slots).length_le.trans threads.length_nodes_le
  rw [layoutOf, threads.head, chainOf_linked enough threads.linked, keys, map_map]
  conv_rhs => rw [← map_id layout]
  exact map_congr_left fun slot isSlot => represents.slotOf_eq isSlot

/-! ## Requests -/

/-- The alignment that `alloc` works with. -/
def DeferBufferAllocator.alignOf (allocator : DeferBufferAllocator) (align : Nat) : Nat :=
  if align = 0 then allocator.mAlign else align

/-- A chunk which `alloc` returned, with the alignment it was requested with. -/
structure Request where
  chunk : MemChunk
  align : Nat

/-- The request of a call. -/
def requestsOf (allocator : DeferBufferAllocator) : Call → List Request
  | .alloc size separate align =>
    [{ chunk := (allocator.alloc size separate align).1, align := allocator.alignOf align }]
  | _ => []

/-- A session and everything that was requested in it. -/
structure Requests where
  session : Session
  requests : List Request := []

namespace Requests

def start (align : Nat) (parent : SingleBufferWithAllocator) : Requests where
  session := Session.start align parent

def call (state : Requests) (event : Call) : Option Requests :=
  match state.session.call event with
  | none => none
  | some session =>
    some
      { session
        requests := requestsOf state.session.allocator event ++ state.requests }

end Requests

def slotsBefore (layout : Layout NodeId) (key : NodeId) : Layout NodeId :=
  layout.takeWhile fun slot => slot.key != key

def slotsBehind (layout : Layout NodeId) (key : NodeId) : Layout NodeId :=
  (layout.dropWhile fun slot => slot.key != key).tail

/--
The slots before the chunk fill a multiple of its alignment, and a node that grows
moves what lies behind it by a multiple of the alignment requested for that.
-/
def Requests.Fits (state : Requests) : Call → Prop
  | .alloc size separate align =>
    let allocator := state.session.allocator
    let size := allocator.roundedSize size align
    match separate, allocator.selectFree size with
    | false, some select =>
      allocator.alignOf align ∣ total (slotsBefore (layoutOf allocator) select) ∧
        ∀ request ∈ state.requests, ∀ node ∈ nodes (slotsBehind (layoutOf allocator) select),
          request.chunk.mNode = some node → request.align ∣ size - (allocator.mChunks select).size
    | _, _ => allocator.alignOf align ∣ total (layoutOf allocator)
  | _ => True

instance (state : Requests) (event : Call) : Decidable (state.Fits event) := by
  cases event with
  | alloc size separate align =>
    unfold Requests.Fits
    dsimp only
    split <;> infer_instance
  | free => exact inferInstanceAs (Decidable True)
  | barrierBegin => exact inferInstanceAs (Decidable True)
  | barrierEnd => exact inferInstanceAs (Decidable True)

/-- `compute` finds a free node, or the offsets that are there already will do. -/
def Requests.ComputeFits (state : Requests) : Prop :=
  state.session.allocator.mFreeList = [] → ∀ request ∈ state.requests,
      request.align ∣ state.session.allocator.chunkOffset request.chunk

/-! ## The invariant -/

/-- The chunk of the request has its place in the layout at a multiple of the alignment. -/
def Request.IsAligned (layout : Layout NodeId) (request : Request) : Prop :=
  ∃ node index position, request.chunk = { mNode := some node } ∧
      Marked layout node index position ∧ request.align ∣ position

theorem Request.IsAligned.still {source target : Layout NodeId} {request : Request}
    (aligned : request.IsAligned source) (still : Still source target) :
    request.IsAligned target := by
  rcases aligned with ⟨node, index, position, chunkEq, marked, divides⟩
  rcases still.marked marked with ⟨index', marked'⟩
  exact ⟨node, index', position, chunkEq, marked', divides⟩

/-- What every state satisfies that is reached by fitting calls. -/
structure Requests.Aligned (state : Requests) (layout : Layout NodeId) : Prop where
  sound : state.session.Sound layout
  aligned : ∀ request ∈ state.requests, request.IsAligned layout

section Parts

variable {allocator : DeferBufferAllocator} {before after : Layout NodeId} {slot : Slot NodeId}

theorem Threads.slotsBefore_eq (threads : Threads allocator (before ++ slot :: after)) :
    slotsBefore (before ++ slot :: after) slot.key = before := by
  have others : ∀ other ∈ before, (other.key != slot.key) = true := by
    intro other member
    exact bne_iff_ne.mpr (threads.other_key (mem_append_left _ member))
  rw [slotsBefore, takeWhile_append_of_pos others, takeWhile_cons_of_neg (by simp), append_nil]

theorem Threads.slotsBehind_eq (threads : Threads allocator (before ++ slot :: after)) :
    slotsBehind (before ++ slot :: after) slot.key = after := by
  have others : ∀ other ∈ before, (other.key != slot.key) = true := by
    intro other member
    exact bne_iff_ne.mpr (threads.other_key (mem_append_left _ member))
  rw [slotsBehind, dropWhile_append_of_pos others, dropWhile_cons_of_neg (by simp), tail_cons]

end Parts

theorem mem_nodes_of_marked {node : NodeId} {index position : Nat}
    (marked : Marked layout node index position) : node ∈ nodes layout := by
  rcases marked with ⟨before, slot, after, relative, rfl, -, member, -⟩
  rw [nodes_append, nodes_cons]
  exact mem_append_right _ (mem_append_left _ (mem_map_of_mem member))

/-! ## One call -/

section Step

variable {allocator : DeferBufferAllocator} {layout layout' : Layout NodeId}

section

variable (represents : Represents allocator layout) {requests : List Request}
  (aligned : ∀ request ∈ requests, request.IsAligned layout) {size align : Nat}

include represents aligned

/-- A new slot at the end moves nothing and starts at the total size. -/
theorem Represents.append_aligned (divides : align ∣ total layout)
    (represents' : Represents
        ((allocator.createMemNode size).2.insertAfter allocator.chunkCount none) layout') :
    (∀ request ∈ requests, request.IsAligned layout') ∧ Request.IsAligned layout'
        { chunk := { mNode := some allocator.chunkCount }, align := align } := by
  have layoutEq := represents'.layoutOf_eq.symm.trans (represents.append size).layoutOf_eq
  rw [layoutEq]
  constructor
  · intro request member
    exact (aligned request member).still ⟨Shift.push layout _, fun _ => rfl⟩
  · refine ⟨allocator.chunkCount, _, _, rfl, Marked.of_mem (mem_singleton.mpr rfl), ?_⟩
    rw [add_zero]
    exact divides

/-- A reused node stays where it is; what lies behind it moves as far as it grows. -/
theorem Represents.reuse_aligned {select : NodeId} (isFree : select ∈ allocator.mFreeList)
    (divides : align ∣ total (slotsBefore layout select))
    (behind :
      ∀ request ∈ requests, ∀ node ∈ nodes (slotsBehind layout select),
        request.chunk.mNode = some node → request.align ∣ size - (allocator.mChunks select).size)
    (represents' : Represents (allocator.reuse select size) layout') :
    (∀ request ∈ requests, request.IsAligned layout') ∧
      Request.IsAligned layout' { chunk := { mNode := some select }, align := align } := by
  rcases (represents.freeList select).mp isFree with ⟨slot, isSlot, rfl, free⟩
  rcases append_of_mem isSlot with ⟨before, after, rfl⟩
  rcases represents.reuse free size with ⟨reused, reusedRepresents, ⟨change, moves⟩, -⟩
  have layoutEq : layout' = reused :=
    represents'.layoutOf_eq.symm.trans reusedRepresents.layoutOf_eq
  have threads := represents.threads
  have slotRep := threads.slots slot isSlot
  rw [threads.slotsBefore_eq] at divides
  rw [threads.slotsBehind_eq, slotRep.size] at behind
  subst layoutEq
  constructor
  · intro request member
    rcases aligned request member with ⟨node, index, position, chunkEq, marked, dividesOld⟩
    refine ⟨node, _, _, chunkEq, change.marked marked, Nat.dvd_add dividesOld ?_⟩
    rw [moves]
    split_ifs with early
    · exact Nat.dvd_zero _
    · -- the request lies in a slot behind the node
      rcases marked.cases with ⟨inFront, -⟩ | ⟨atSlot, -⟩ | ⟨later, -, rest, inAfter, -⟩
      · exact absurd (le_of_lt inFront) early
      · exact absurd (le_of_eq atSlot) early
      · exact behind request member node (mem_nodes_of_marked inAfter) (by rw [chunkEq])
  · have marked : Marked (before ++ slot :: after) slot.key before.length (total before + 0) :=
      Marked.of_mem slotRep.key_mark
    have placed := change.marked marked
    refine ⟨slot.key, _, _, rfl, placed, ?_⟩
    rw [moves, if_pos le_rfl]
    exact divides

end

/-- `alloc` keeps all chunks aligned and aligns the new one, if it fits. -/
theorem Requests.Aligned.alloc {state : Requests} {size align : Nat} {separate : Bool}
    (aligned : state.Aligned layout) (fits : state.Fits (.alloc size separate align))
    (represents' : Represents (state.session.allocator.alloc size separate align).2 layout') :
    (∀ request ∈ state.requests, request.IsAligned layout') ∧ Request.IsAligned layout'
        { chunk := (state.session.allocator.alloc size separate align).1
          align := state.session.allocator.alignOf align } := by
  have represents := aligned.sound.represents
  simp only [Requests.Fits, represents.layoutOf_eq] at fits
  unfold DeferBufferAllocator.alloc at represents' ⊢
  cases separate with
  | true => exact represents.append_aligned aligned.aligned fits represents'
  | false =>
    cases selected : state.session.allocator.selectFree
        (state.session.allocator.roundedSize size align) with
    | none =>
      simp only [selected] at fits represents' ⊢
      exact represents.append_aligned aligned.aligned fits represents'
    | some select =>
      simp only [selected] at fits represents' ⊢
      exact represents.reuse_aligned aligned.aligned
          (DeferBufferAllocator.selectFree_mem selected) fits.1 fits.2 represents'

theorem Requests.Aligned.call {state next : Requests} {event : Call}
    (aligned : state.Aligned layout) (fits : state.Fits event)
    (taken : state.call event = some next) : ∃ layout', next.Aligned layout' := by
  rw [Requests.call] at taken
  split at taken
  · nomatch taken
  · next session called =>
    cases taken
    rcases aligned.sound.call called with ⟨layout', sound', still⟩
    refine ⟨layout', sound', ?_⟩
    cases event with
    | alloc size separate align =>
      cases called
      rcases aligned.alloc fits sound'.represents with ⟨earlier, new⟩
      intro request member
      rcases mem_cons.mp member with rfl | inRequests
      · exact new
      · exact earlier request inRequests
    | free index =>
      exact fun request member => (aligned.aligned request member).still (still rfl)
    | barrierBegin =>
      exact fun request member => (aligned.aligned request member).still (still rfl)
    | barrierEnd =>
      exact fun request member => (aligned.aligned request member).still (still rfl)

end Step

/-! ## The plan -/

theorem Requests.aligned_start (align : Nat) (parent : SingleBufferWithAllocator) :
    (Requests.start align parent).Aligned [] where
  sound := Session.sound_start align parent
  aligned := by
    intro request member
    nomatch member

theorem Session.Sound.single_of_compute {session : Session}
    (sound : session.Sound layout) (some : session.allocator.mFreeList ≠ [])
    (success : (session.allocator.compute onAlloc).1 = .noError) :
    ∃ slot, layout = [slot] ∧ slot.free = true := by
  have represents := sound.represents
  have headTail : session.allocator.mHead = session.allocator.mTail := by
    by_contra differ
    rw [DeferBufferAllocator.compute, if_neg (by rw [represents.unplanned]; decide),
      if_neg some, if_pos (Or.inr differ)] at success
    cases success
  have unused : session.live = [] := by
    by_contra someLive
    exact sound.head_ne_tail some someLive headTail
  have noneUsed : used layout = [] := by
    have live := sound.live
    rw [unused] at live
    exact map_eq_nil_iff.mp live.nil_eq.symm
  rcases represents.single noneUsed with rfl | single
  · rcases exists_mem_of_ne_nil _ some with ⟨id, isFree⟩
    rcases (represents.freeList id).mp isFree with ⟨slot, isSlot, -⟩
    cases isSlot
  · exact single

/-- An accepted plan has every chunk at a multiple of its alignment. -/
theorem Requests.Aligned.compute {state : Requests}
    (aligned : state.Aligned layout) (fits : state.ComputeFits)
    (success : (state.session.allocator.compute onAlloc).1 = .noError) :
    ∀ request ∈ state.requests, request.align ∣
        (state.session.allocator.compute onAlloc).2.chunkOffset request.chunk := by
  have represents := aligned.sound.represents
  intro request member
  by_cases noneFree : state.session.allocator.mFreeList = []
  · have isComputed :
        state.session.allocator.compute onAlloc = (.noError, state.session.allocator) := by
      rw [DeferBufferAllocator.compute, if_neg (by rw [represents.unplanned]; decide),
        if_pos noneFree]
    rw [isComputed]
    exact fits noneFree request member
  · rcases aligned.sound.single_of_compute noneFree success with ⟨slot, rfl, free⟩
    rcases represents.compute_single free onAlloc with ⟨placed, -, -⟩
    rcases aligned.aligned request member with
      ⟨node, index, position, chunkEq, marked, divides⟩
    have split : Marked ([] ++ slot :: []) node index position := marked
    have offsetEq :
        (state.session.allocator.compute onAlloc).2.chunkOffset request.chunk = position := by
      rw [chunkEq]
      show ((state.session.allocator.compute onAlloc).2.mChunks node).offset + 0 = position
      rcases split.cases with
        ⟨early, -⟩ | ⟨-, relative, isMark, rfl⟩ | ⟨later, -, rest, found, -⟩
      · cases early
      · rw [placed node relative isMark, total_nil, zero_add, add_zero]
      · cases found.index_lt
    rw [offsetEq]
    exact divides

/-- A chunk of a small alignment behind one of a large alignment. -/
def descendingCalls : List Call :=
  [.alloc 100 false 64, .alloc 10 false 16, .free 1, .alloc 50 false 32, .free 0, .free 0]

end Mnn.Core.BufferAllocator
