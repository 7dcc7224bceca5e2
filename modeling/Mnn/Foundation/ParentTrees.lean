import Mathlib

/-!
# Trees that are given by parents

Nodes are numbered as they are made, so a node has a greater number than its parent.
A queue that begins with the nodes without a parent visits each node once, and each node
has one path from the top.
-/

variable {visited queue path : List Nat} {node : Nat}

namespace Mnn.Foundation.ParentTrees

open List

variable (parent : Nat → Option Nat) (count : Nat)

/-- Each parent is there and was made before. -/
def Ordered : Prop := ∀ node < count, ∀ above, parent node = some above → above < node

/-- The nodes with a parent, or without one. -/
def childrenOf (above : Option Nat) : List Nat :=
  (List.range count).filter fun node => decide (parent node = above)

/-- The loop that takes a node from the queue and appends its children to it. -/
def visit (children : Nat → List Nat) : Nat → List Nat → List Nat
  | 0, _ => []
  | _ + 1, [] => []
  | fuel + 1, node :: queue => node :: visit children fuel (queue ++ children node)

variable {parent count}

theorem mem_childrenOf {above : Option Nat} :
    node ∈ childrenOf parent count above ↔ node < count ∧ parent node = above := by
  rw [childrenOf, mem_filter, mem_range, decide_eq_true_iff]

theorem nodup_childrenOf (above : Option Nat) : (childrenOf parent count above).Nodup :=
  nodup_range.filter _

/-- The nodes that were seen: each once, with their parents visited and the children of
those visited. -/
structure Seen (parent : Nat → Option Nat) (count : Nat) (visited queue : List Nat) :
    Prop where
  nodup : (visited ++ queue).Nodup
  inside : ∀ node ∈ visited ++ queue, node < count
  above : ∀ node ∈ visited ++ queue, ∀ up, parent node = some up → up ∈ visited
  roots : ∀ node < count, parent node = none → node ∈ visited ++ queue
  below : ∀ node < count, ∀ up ∈ visited, parent node = some up → node ∈ visited ++ queue

theorem Seen.first : Seen parent count [] (childrenOf parent count none) where
  nodup := nodup_childrenOf none
  inside node member := (mem_childrenOf.mp member).1
  above node member up isUp := by
    have isRoot := (mem_childrenOf.mp member).2
    nomatch isRoot.symm.trans isUp
  roots node less isRoot := mem_childrenOf.mpr ⟨less, isRoot⟩
  below node less up member := absurd member not_mem_nil

theorem Seen.next (seen : Seen parent count visited (node :: queue)) :
    Seen parent count (visited ++ [node]) (queue ++ childrenOf parent count (some node)) := by
  have same : visited ++ [node] ++ (queue ++ childrenOf parent count (some node)) =
      visited ++ node :: queue ++ childrenOf parent count (some node) := by
    simp only [append_assoc, cons_append, nil_append]
  have notVisited : node ∉ visited := fun member =>
    (nodup_append.mp seen.nodup).2.2 node member node mem_cons_self rfl
  refine ⟨?_, ?_, ?_, ?_, ?_⟩
  · rw [same]
    refine nodup_append.mpr ⟨seen.nodup, nodup_childrenOf _, ?_⟩
    rintro other member child isChild rfl
    exact notVisited (seen.above other member node (mem_childrenOf.mp isChild).2)
  · rw [same]
    intro other member
    rcases mem_append.mp member with member | member
    · exact seen.inside other member
    · exact (mem_childrenOf.mp member).1
  · rw [same]
    intro other member up isUp
    rcases mem_append.mp member with member | member
    · exact mem_append_left _ (seen.above other member up isUp)
    · have isNode := (mem_childrenOf.mp member).2
      rw [isUp] at isNode
      rw [Option.some.inj isNode]
      exact mem_append_right _ (mem_singleton_self _)
  · rw [same]
    exact fun other less isRoot => mem_append_left _ (seen.roots other less isRoot)
  · rw [same]
    intro other less up member isUp
    rcases mem_append.mp member with member | member
    · exact mem_append_left _ (seen.below other less up member isUp)
    · rw [mem_singleton.mp member] at isUp
      exact mem_append_right _ (mem_childrenOf.mpr ⟨less, isUp⟩)

theorem Seen.all (ordered : Ordered parent count)
    (seen : Seen parent count visited []) : visited.Perm (List.range count) := by
  have member : ∀ node < count, node ∈ visited := by
    intro node
    induction node using Nat.strongRecOn with
    | ind node ih =>
      intro less
      cases isUp : parent node with
      | none =>
        have isSeen := seen.roots node less isUp
        rwa [append_nil] at isSeen
      | some up =>
        have before := ordered node less up isUp
        have isSeen := seen.below node less up (ih up before (Nat.lt_trans before less)) isUp
        rwa [append_nil] at isSeen
  have nodup := seen.nodup
  have inside := seen.inside
  rw [append_nil] at nodup inside
  rw [perm_ext_iff_of_nodup nodup nodup_range]
  exact fun node => ⟨fun isVisited => mem_range.mpr (inside node isVisited),
    fun isNode => member node (mem_range.mp isNode)⟩

theorem Seen.perm_visit (ordered : Ordered parent count)
    {fuel : Nat} (seen : Seen parent count visited queue) (enough : count ≤ visited.length + fuel) :
    (visited ++ visit (fun node => childrenOf parent count (some node)) fuel queue).Perm
      (List.range count) := by
  induction fuel generalizing visited queue with
  | zero =>
    have few : (visited ++ queue).length ≤ count := by
      have subset := List.Nodup.subperm seen.nodup fun node member =>
        mem_range.mpr (seen.inside node member)
      have le := subset.length_le
      rwa [length_range] at le
    rw [length_append] at few
    have none : queue = [] := length_eq_zero_iff.mp (by omega)
    subst none
    rw [visit, append_nil]
    exact seen.all ordered
  | succ fuel ih =>
    cases queue with
    | nil =>
      rw [visit, append_nil]
      exact seen.all ordered
    | cons node queue =>
      rw [visit]
      have visits := ih seen.next (by rw [length_append, length_singleton]; omega)
      rwa [append_assoc, singleton_append] at visits

theorem perm_visit (ordered : Ordered parent count) :
    (visit (fun node => childrenOf parent count (some node)) count
      (childrenOf parent count none)).Perm (List.range count) :=
  Seen.perm_visit ordered Seen.first (by rw [length_nil, Nat.zero_add])

/-! ## Paths -/

/-- The nodes from the top to a node. -/
inductive PathTo (parent : Nat → Option Nat) : Nat → List Nat → Prop
  | top {node : Nat} : parent node = none → PathTo parent node [node]
  | next {node up : Nat} {path : List Nat} :
      parent node = some up → PathTo parent up path → PathTo parent node (path ++ [node])

theorem exists_pathTo (ordered : Ordered parent count) (less : node < count) :
    ∃ path, PathTo parent node path := by
  induction node using Nat.strongRecOn with
  | ind node ih =>
    cases isUp : parent node with
    | none => exact ⟨_, .top isUp⟩
    | some up =>
      have before := ordered node less up isUp
      obtain ⟨path, isPath⟩ := ih up before (Nat.lt_trans before less)
      exact ⟨_, .next isUp isPath⟩

theorem PathTo.self_mem (isPath : PathTo parent node path) :
    node ∈ path := by
  cases isPath with
  | top => exact mem_singleton_self _
  | next => exact mem_append_right _ (mem_singleton_self _)

theorem PathTo.of_mem {other : Nat} (isPath : PathTo parent node path) (member : other ∈ path) :
    ∃ front, PathTo parent other front ∧ front <+: path := by
  induction isPath with
  | top isTop =>
    rw [mem_singleton.mp member]
    exact ⟨_, .top isTop, prefix_rfl⟩
  | next isUp isPath ih =>
    rcases mem_append.mp member with member | member
    · obtain ⟨front, isFront, isPrefix⟩ := ih member
      exact ⟨front, isFront, isPrefix.trans (prefix_append ..)⟩
    · rw [mem_singleton.mp member]
      exact ⟨_, .next isUp isPath, prefix_rfl⟩

/-- A set that has the parent of each of its nodes has their paths. -/
theorem PathTo.subset {selected : List Nat}
    (closed : ∀ node ∈ selected, ∀ up, parent node = some up → up ∈ selected)
    (isPath : PathTo parent node path) (member : node ∈ selected) : path ⊆ selected := by
  induction isPath with
  | top =>
    intro other isOther
    rwa [mem_singleton.mp isOther]
  | next isUp _ ih =>
    intro other isOther
    rcases mem_append.mp isOther with isOther | isOther
    · exact ih (closed _ member _ isUp) isOther
    · rwa [mem_singleton.mp isOther]

end Mnn.Foundation.ParentTrees
