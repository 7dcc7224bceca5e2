import Mnn.Foundation.TreeReader

/-!
# Writers of trees

A tree is written as it is read.  What its leaves stand for may be nothing, which
then is left out of a sequence.
-/

namespace Mnn.Foundation.ByteReader

open BitFields
open List
open Option

variable {Leaf Value : Type}

/-! ## The leaves of a tree -/

namespace Composite

mutual

/-- What a tree stands for if its leaves stand for these values. -/
def filterMap (f : Leaf → Option Value) : Composite Leaf → Option (Composite Value)
  | .leaf value => (f value).map .leaf
  | .sequence children => some (.sequence (filterMaps f children).reduceOption)

def filterMaps (f : Leaf → Option Value) : List (Composite Leaf) → List (Option (Composite Value))
  | [] => []
  | tree :: trees => filterMap f tree :: filterMaps f trees

end

mutual

def leaves : Composite Leaf → List Leaf
  | .leaf value => [value]
  | .sequence children => leavesOf children

def leavesOf : List (Composite Leaf) → List Leaf
  | [] => []
  | tree :: trees => leaves tree ++ leavesOf trees

end

@[simp]
theorem length_filterMaps (f : Leaf → Option Value) (trees : List (Composite Leaf)) :
    (filterMaps f trees).length = trees.length := by
  induction trees with
  | nil => rfl
  | cons tree trees ih =>
    rw [filterMaps, length_cons, length_cons, ih]

end Composite

section

variable {xs ys : List (Option Value)} (some : List.Forall₂ (fun x y => y.isSome → x.isSome) xs ys)

include some

/-- Where the second list has a value the first one has one, too. -/
theorem length_reduceOption_le :
    ys.reduceOption.length ≤ xs.reduceOption.length := by
  induction some with
  | nil => exact Nat.le_refl 0
  | @cons x y xs ys first _ le =>
    cases y with
    | none =>
      rw [reduceOption_cons_of_none]
      cases x with
      | none => rwa [reduceOption_cons_of_none]
      | some value =>
        rw [reduceOption_cons_of_some, length_cons]
        exact Nat.le_succ_of_le le
    | some value =>
      obtain ⟨value', rfl⟩ := isSome_iff_exists.mp (first rfl)
      rw [reduceOption_cons_of_some, reduceOption_cons_of_some,
        length_cons, length_cons]
      exact Nat.succ_le_succ le

theorem reduceOption_inj :
    xs.reduceOption = ys.reduceOption ↔ xs = ys := by
  refine ⟨fun same => ?_, congrArg _⟩
  induction some with
  | nil => rfl
  | @cons x y xs ys first others ih =>
    cases y with
    | none =>
      cases x with
      | none =>
        rw [reduceOption_cons_of_none, reduceOption_cons_of_none] at same
        rw [ih same]
      | some value =>
        rw [reduceOption_cons_of_some, reduceOption_cons_of_none] at same
        have le := length_reduceOption_le others
        rw [← same, length_cons] at le
        exact absurd le (Nat.not_succ_le_self _)
    | some value =>
      obtain ⟨value', rfl⟩ := isSome_iff_exists.mp (first rfl)
      rw [reduceOption_cons_of_some, reduceOption_cons_of_some, List.cons.injEq] at same
      rw [same.1, ih same.2]

end

namespace Composite

variable {f g : Leaf → Option Value}

theorem isSome_filterMap (some : ∀ leaf, (g leaf).isSome → (f leaf).isSome)
    (tree : Composite Leaf) : (tree.filterMap g).isSome → (tree.filterMap f).isSome := by
  cases tree with
  | leaf value =>
    rw [filterMap, filterMap, isSome_map, isSome_map]
    exact some value
  | sequence children =>
    rw [filterMap, filterMap]
    exact fun _ => rfl

theorem forall₂_filterMaps (some : ∀ leaf, (g leaf).isSome → (f leaf).isSome)
    (trees : List (Composite Leaf)) :
    List.Forall₂ (fun x y => y.isSome → x.isSome) (filterMaps f trees) (filterMaps g trees) := by
  induction trees with
  | nil => exact .nil
  | cons tree trees ih =>
    exact .cons (isSome_filterMap some tree) ih

mutual

theorem filterMap_eq_iff (some : ∀ leaf, (g leaf).isSome → (f leaf).isSome)
    (tree : Composite Leaf) :
    tree.filterMap f = tree.filterMap g ↔ ∀ leaf ∈ tree.leaves, f leaf = g leaf := by
  cases tree with
  | leaf value =>
    rw [filterMap, filterMap, leaves, forall_mem_singleton]
    exact (map_injective fun _ _ => Composite.leaf.inj).eq_iff
  | sequence children =>
    rw [filterMap, filterMap, leaves, Option.some.injEq, Composite.sequence.injEq,
      reduceOption_inj (forall₂_filterMaps some children)]
    exact filterMaps_eq_iff some children

theorem filterMaps_eq_iff (some : ∀ leaf, (g leaf).isSome → (f leaf).isSome)
    (trees : List (Composite Leaf)) :
    filterMaps f trees = filterMaps g trees ↔ ∀ leaf ∈ leavesOf trees, f leaf = g leaf := by
  cases trees with
  | nil => exact iff_of_true rfl fun _ impossible => absurd impossible not_mem_nil
  | cons tree trees =>
    rw [filterMaps, filterMaps, leavesOf, List.cons.injEq, forall_mem_append]
    exact and_congr (filterMap_eq_iff some tree) (filterMaps_eq_iff some trees)

end

end Composite

/-! ## Writing -/

/-- A number in so many bytes, if it fits. -/
def pack (count number : Nat) : Option (List Byte) :=
  if number < 256 ^ count then some (toBytes count number) else none

theorem pack_eq_some {count number : Nat} {bytes : List Byte} :
    pack count number = some bytes ↔ number < 256 ^ count ∧ bytes = toBytes count number := by
  unfold pack
  split
  · rename_i fits
    rw [some.injEq, eq_comm, and_iff_right fits]
  · rename_i tooLarge
    exact iff_of_false nofun
      fun impossible => tooLarge impossible.1

section Write

variable (sequenceType : Byte) (writeLeaf : Leaf → Option (List Byte))

mutual

def writeTree : Composite Leaf → Option (List Byte)
  | .leaf value => writeLeaf value
  | .sequence children => do
      let count ← pack 4 children.length
      let body ← writeTrees children
      some (sequenceType :: (count ++ body))

def writeTrees : List (Composite Leaf) → Option (List Byte)
  | [] => some []
  | tree :: trees => do
      let first ← writeTree tree
      let others ← writeTrees trees
      some (first ++ others)

end

variable {sequenceType writeLeaf} {leafBytes : Byte → Grammar (Option Value)}
variable {f : Leaf → Option Value}

mutual

theorem writeTree_derives (leaf : ∀ leaf bytes, writeLeaf leaf = some bytes →
      ∃ type body, bytes = type :: body ∧ type ≠ sequenceType ∧ leafBytes type body (f leaf))
    (tree : Composite Leaf) {bytes : List Byte}
    (writes : writeTree sequenceType writeLeaf tree = some bytes) :
    TreeBytes sequenceType leafBytes bytes (tree.filterMap f) := by
  cases tree with
  | leaf value =>
    rw [writeTree] at writes
    obtain ⟨type, body, rfl, notSequence, isLeaf⟩ := leaf value bytes writes
    rw [Composite.filterMap, ← append_nil (type :: body)]
    exact .leaf notSequence isLeaf .nil
  | sequence children =>
    simp only [writeTree, bind_eq_bind, bind_eq_some_iff, pack_eq_some] at writes
    obtain ⟨_, ⟨few, rfl⟩, body, writes, same⟩ := writes
    obtain rfl := some.inj same
    rw [Composite.filterMap,
      ← append_nil (sequenceType :: (toBytes 4 children.length ++ body))]
    have derived := writeTrees_derives leaf children writes
    rw [← Composite.length_filterMaps f] at few ⊢
    exact .sequence few derived .nil

theorem writeTrees_derives (leaf : ∀ leaf bytes, writeLeaf leaf = some bytes →
      ∃ type body, bytes = type :: body ∧ type ≠ sequenceType ∧ leafBytes type body (f leaf))
    (trees : List (Composite Leaf)) {bytes : List Byte}
    (writes : writeTrees sequenceType writeLeaf trees = some bytes) :
    Trees sequenceType leafBytes bytes (Composite.filterMaps f trees) := by
  cases trees with
  | nil =>
    obtain rfl := some.inj writes
    exact .nil
  | cons tree trees =>
    simp only [writeTrees, bind_eq_bind, bind_eq_some_iff] at writes
    obtain ⟨first, writesFirst, others, writesOthers, same⟩ := writes
    obtain rfl := some.inj same
    rw [Composite.filterMaps]
    exact (writeTree_derives leaf tree writesFirst).cons
      (writeTrees_derives leaf trees writesOthers)

end

end Write

end Mnn.Foundation.ByteReader
