import Mathlib

/-!
# Doubly linked lists

The nodes of a heap carry two optional pointers.  `Linked` says that a list of
nodes is threaded through these pointers in both directions, between a given
predecessor and a given successor.  Insertion behind a node and removal of a
node are stated for any two pointer maps which differ as the operation
prescribes, so that no particular heap is presupposed.
-/

namespace Mnn.Foundation.LinkedList

open List

universe u

variable {Node : Type u}

/-- `nodes` is threaded from `previous` to `next`. -/
def Linked (left right : Node → Option Node) : Option Node → List Node → Option Node → Prop
  | _, [], _ => True
  | previous, node :: rest, next =>
    left node = previous ∧ right node = rest.head?.or next ∧ Linked left right (some node) rest next

variable {previous next : Option Node} {front nodes : List Node}

theorem linked_append {left right : Node → Option Node} {back : List Node} :
    Linked left right previous (front ++ back) next ↔
      Linked left right previous front (back.head?.or next) ∧
        Linked left right (front.getLast?.or previous) back next := by
  induction front generalizing previous with
  | nil => simp [Linked]
  | cons node rest ih =>
    simp only [cons_append, Linked, ih, head?_append, Option.or_assoc, getLast?_cons, and_assoc]
    cases rest.getLast? <;> simp

section

variable {left right left' right' : Node → Option Node}

theorem Linked.set_previous {previous' : Option Node}
    (linked : Linked left right previous nodes next)
    (sameRight : ∀ node ∈ nodes, right' node = right node)
    (sameLeft : ∀ node ∈ nodes.tail, left' node = left node)
    (newLeft : ∀ node, nodes.head? = some node → left' node = previous') :
    Linked left' right' previous' nodes next := by
  induction nodes generalizing previous previous' with
  | nil => trivial
  | cons node rest ih =>
    rcases linked with ⟨leftEq, rightEq, linkedRest⟩
    refine ⟨newLeft node rfl, ?_, ?_⟩
    · rw [sameRight node mem_cons_self, rightEq]
    · apply ih linkedRest
      · intro other member
        exact sameRight other (mem_cons_of_mem _ member)
      · intro other member
        exact sameLeft other (mem_of_mem_tail member)
      · intro head headEq
        rw [sameLeft head (mem_of_mem_head? headEq)]
        cases rest with
        | nil => cases headEq
        | cons first others =>
          cases headEq
          exact linkedRest.1

theorem Linked.congr (linked : Linked left right previous nodes next)
    (sameLeft : ∀ node ∈ nodes, left' node = left node)
    (sameRight : ∀ node ∈ nodes, right' node = right node) :
    Linked left' right' previous nodes next := by
  apply linked.set_previous sameRight
  · intro node member
    exact sameLeft node (mem_of_mem_tail member)
  · intro node headEq
    rw [sameLeft node (mem_of_mem_head? headEq)]
    cases nodes with
    | nil => cases headEq
    | cons first others =>
      cases headEq
      exact linked.1

theorem Linked.set_next {next' : Option Node} {last : Node}
    (linked : Linked left right previous (front ++ [last]) next)
    (sameLeft : ∀ node ∈ front ++ [last], left' node = left node)
    (sameRight : ∀ node ∈ front, right' node = right node) (newRight : right' last = next') :
    Linked left' right' previous (front ++ [last]) next' := by
  rcases linked_append.mp linked with ⟨linkedFront, lastLeft, -, -⟩
  refine linked_append.mpr ⟨?_, ?_, by simpa using newRight, trivial⟩
  · exact linkedFront.congr (fun node member =>
          sameLeft node (mem_append_left _ member))
        sameRight
  · rw [sameLeft last (by simp)]
    exact lastLeft

end

section

variable {left right : Node → Option Node} {next : Option Node} {previous : Option Node}
  {front back : List Node} {node : Node}
  (linked : Linked left right previous (front ++ node :: back) next)

include linked

theorem Linked.right_eq :
    right node = back.head?.or next :=
  (linked_append.mp linked).2.2.1

theorem Linked.left_eq :
    left node = front.getLast?.or previous :=
  (linked_append.mp linked).2.1

end

section

variable {left right left' right' : Node → Option Node} {previous next : Option Node}
  {front back : List Node}

/-- What is in front of a place and behind it, once the pointers there have changed. -/
theorem Linked.relink {node : Node} {middle middle' target : Option Node}
    (linkedFront : Linked left right previous (front ++ [node]) target)
    (linkedBack : Linked left right middle back next) (distinct : (front ++ node :: back).Nodup)
    (headLeft : ∀ head, back.head? = some head → left' head = middle')
    (sameRight :
      ∀ other ∈ front ++ node :: back, other ≠ node →
        right' other = right other)
    (sameLeft :
      ∀ other ∈ front ++ node :: back, back.head? ≠ some other →
        left' other = left other) :
    Linked left' right' previous (front ++ [node]) (right' node) ∧
      Linked left' right' middle' back next := by
  rw [nodup_append, nodup_cons] at distinct
  rcases distinct with ⟨-, ⟨nodeFresh, backDistinct⟩, apart⟩
  constructor
  · apply linkedFront.set_next
    · intro other member
      apply sameLeft other (by simp at member ⊢; tauto)
      intro headEq
      have inBack := mem_of_mem_head? headEq
      rcases mem_append.mp member with inFront | isNode
      · exact apart other inFront other (mem_cons_of_mem _ inBack) rfl
      · rw [mem_singleton.mp isNode] at inBack
        exact nodeFresh inBack
    · intro other member
      exact sameRight other (by simp [member]) (apart other member node mem_cons_self)
    · rfl
  · apply linkedBack.set_previous
    · intro other member
      apply sameRight other (by simp [member])
      rintro rfl
      exact nodeFresh member
    · intro other member
      apply sameLeft other (by simp [mem_of_mem_tail member])
      intro headEq
      cases back with
      | nil => cases headEq
      | cons first others =>
        cases headEq
        exact (nodup_cons.mp backDistinct).1 member
    · exact headLeft

theorem Linked.insert {node fresh : Node}
    (linked : Linked left right previous (front ++ node :: back) next)
    (distinct : (front ++ node :: back).Nodup) (nodeRight : right' node = some fresh)
    (freshLeft : left' fresh = some node) (freshRight : right' fresh = back.head?.or next)
    (headLeft : ∀ head, back.head? = some head → left' head = some fresh)
    (sameRight :
      ∀ other ∈ front ++ node :: back, other ≠ node →
        right' other = right other)
    (sameLeft :
      ∀ other ∈ front ++ node :: back, back.head? ≠ some other →
        left' other = left other) :
    Linked left' right' previous (front ++ node :: fresh :: back) next := by
  rw [append_cons] at linked
  rcases linked_append.mp linked with ⟨linkedFront, linkedBack⟩
  rcases linkedFront.relink linkedBack distinct headLeft sameRight sameLeft with
    ⟨newFront, newBack⟩
  rw [nodeRight] at newFront
  rw [append_cons, linked_append]
  exact ⟨newFront, by simpa using freshLeft, freshRight, newBack⟩

theorem Linked.remove {node removed : Node}
    (linked : Linked left right previous (front ++ node :: removed :: back) next)
    (distinct : (front ++ node :: removed :: back).Nodup)
    (nodeRight : right' node = back.head?.or next)
    (headLeft : ∀ head, back.head? = some head → left' head = some node)
    (sameRight :
      ∀ other ∈ front ++ node :: back, other ≠ node →
        right' other = right other)
    (sameLeft :
      ∀ other ∈ front ++ node :: back, back.head? ≠ some other →
        left' other = left other) :
    Linked left' right' previous (front ++ node :: back) next := by
  rw [append_cons] at linked
  rcases linked_append.mp linked with ⟨linkedFront, -, -, linkedBack⟩
  have distinct := distinct.sublist (((sublist_cons_self removed back).cons_cons node).append_left _)
  rcases linkedFront.relink linkedBack distinct headLeft sameRight sameLeft with
    ⟨newFront, newBack⟩
  rw [nodeRight] at newFront
  rw [append_cons, linked_append]
  exact ⟨newFront, by simpa using newBack⟩

end

end Mnn.Foundation.LinkedList
