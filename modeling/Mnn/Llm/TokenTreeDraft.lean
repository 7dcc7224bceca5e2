import Mnn.Llm.TokenTree

/-!
# The draft of a tree

The outputs of `finalize` describe the tree of the selected nodes if each selected node
is selected with its parent.
-/

variable {i j node other leaf : Nat} {path sorted : List Nat} {mask : List (List Bool)}

namespace Mnn.Llm

open Mnn.Foundation ParentTrees TopSelection
open List

/-- A bit of the mask. -/
def TreeOutputs.Marked (out : TreeOutputs) (i j : Nat) : Prop :=
  (out.attentionMask[i]?.bind fun row => row[j]?) = some true

namespace TokenTree

variable {Score : Type} (tree : TokenTree Score)

/-! ## Well-formed drafts -/

/-- The line of the path from the root to a leaf of the selected nodes; without nodes the
root is the leaf. -/
inductive LeafLine (allNodes : List Nat) : List Nat → Prop
  | root : allNodes = [] → LeafLine allNodes [0]
  | leaf {leaf : Nat} {path places : List Nat} :
      leaf ∈ allNodes → (∀ child ∈ allNodes, tree.parent child ≠ some leaf) →
        PathTo tree.parent leaf path →
        List.Forall₂ (fun place node => allNodes[place]? = some node) places path →
        LeafLine allNodes (0 :: places.map (· + 1))

/-- The outputs describe the tree of the selected nodes, with the sampled token as its
root. -/
structure WellFormed (sampleToken : Int) (allNodes : List Nat) (out : TreeOutputs) :
    Prop where
  tokens : out.draftTokens = sampleToken :: allNodes.map tree.tokenOf
  parents : ∀ (i node up : Nat), allNodes[i]? = some node → tree.parent node = some up →
    ∃ j < i, allNodes[j]? = some up
  positions : out.positionIds.length = allNodes.length + 1 ∧ out.positionIds[0]? = some 0 ∧
    ∀ (i node : Nat) (path : List Nat), allNodes[i]? = some node → PathTo tree.parent node path →
      out.positionIds[i + 1]? = some (path.length : Int)
  square : out.attentionMask.length = allNodes.length + 1 ∧
    ∀ line ∈ out.attentionMask, line.length = allNodes.length + 1
  rootLine : ∀ j, out.Marked 0 j ↔ j = 0
  maskLines : ∀ (i node : Nat) (path : List Nat), allNodes[i]? = some node →
    PathTo tree.parent node path → ∀ j, out.Marked (i + 1) j ↔
      j = 0 ∨ ∃ place other, j = place + 1 ∧ allNodes[place]? = some other ∧ other ∈ path
  lines : ∀ line, line ∈ out.retrieveIndices ↔ tree.LeafLine allNodes line
  nodup : out.retrieveIndices.Nodup
  covered : ∀ i ≤ allNodes.length, ∃ line ∈ out.retrieveIndices, i ∈ line

/-- Each selected node is selected with its parent. -/
def Closed (allNodes : List Nat) : Prop :=
  ∀ node ∈ allNodes, ∀ up, tree.parent node = some up → up ∈ allNodes

/-- Nodes of a sound tree, by their ids and with their parents. -/
structure Selected [LogScore Score] (allNodes : List Nat) : Prop where
  sound : Sound tree
  inside : ∀ node ∈ allNodes, node < tree.nodes.length
  increases : allNodes.Pairwise (· < ·)
  closed : tree.Closed allNodes

variable {tree} [LogScore Score] {allNodes : List Nat}

namespace Selected

variable (selected : tree.Selected allNodes)

include selected

theorem nodup : allNodes.Nodup := selected.increases.imp ne_of_lt

theorem place_lt (isNode : allNodes[i]? = some node)
    (isOther : allNodes[j]? = some other) (less : other < node) : j < i := by
  by_contra notLess
  obtain ⟨insideNode, rfl⟩ := List.getElem?_eq_some_iff.mp isNode
  obtain ⟨insideOther, rfl⟩ := List.getElem?_eq_some_iff.mp isOther
  rcases Nat.lt_or_eq_of_le (Nat.le_of_not_lt notLess) with before | same
  · exact lt_asymm less
      (pairwise_iff_getElem.mp selected.increases i j insideNode insideOther before)
  · subst same
    exact lt_irrefl _ less

theorem parent_place {up : Nat} (isNode : allNodes[i]? = some node)
    (isUp : tree.parent node = some up) : ∃ j < i, allNodes[j]? = some up := by
  have member := mem_of_getElem? isNode
  obtain ⟨j, isPlace⟩ := getElem?_of_mem (selected.closed node member up isUp)
  have before := selected.sound.ordered node (selected.inside node member) up isUp
  exact ⟨j, selected.place_lt isNode isPlace before, isPlace⟩

theorem nodeId2Idx_eq (isNode : allNodes[i]? = some node) :
    nodeId2Idx allNodes node = i := by
  obtain ⟨inside, rfl⟩ := List.getElem?_eq_some_iff.mp isNode
  rw [nodeId2Idx, if_pos (getElem_mem ..)]
  exact selected.nodup.idxOf_getElem i inside

/-! ### Positions -/

omit selected in
theorem depthOf_eq (sound : Sound tree)
    (less : node < tree.nodes.length) (isPath : PathTo tree.parent node path) :
    tree.depthOf (some node) + 1 = path.length := by
  induction isPath with
  | top isTop =>
    rw [sound.depth _ less, isTop]
    rfl
  | @next node up path isUp _ ih =>
    have before := sound.ordered node less up isUp
    rw [sound.depth _ less, isUp, ih (lt_trans before less), length_append, length_singleton]
    exact (Int.natCast_add path.length 1).symm

end Selected

/-! ### The mask -/

omit [LogScore Score] in
theorem length_maskLine (mask : List (List Bool)) (i : Nat) :
    (tree.maskLine allNodes mask i).length = allNodes.length := by
  rw [maskLine, length_map, length_range]

omit [LogScore Score] in
theorem getElem?_maskLine (mask : List (List Bool)) (i : Nat) (less : j < allNodes.length) :
    (tree.maskLine allNodes mask i)[j]? = some (decide (j = i) ||
      match allNodes[i]?.bind tree.parent with
      | some up => decide (up ∈ allNodes) &&
          (mask.getD (nodeId2Idx allNodes up) []).getD j false
      | none => false) := by
  rw [maskLine, getElem?_map, getElem?_range less]
  rfl

variable (tree allNodes) in
/-- The first rows mark the nodes of the paths. -/
structure Filled (mask : List (List Bool)) (count : Nat) : Prop where
  length : mask.length = allNodes.length
  square : ∀ row ∈ mask, row.length = allNodes.length
  marks : ∀ i < count, ∀ (node : Nat) (path : List Nat), allNodes[i]? = some node →
    PathTo tree.parent node path → ∀ j other : Nat, allNodes[j]? = some other →
      (mask.getD i []).getD j false = decide (other ∈ path)

omit [LogScore Score] in
theorem Filled.first : Filled tree allNodes
    (List.replicate allNodes.length (List.replicate allNodes.length false)) 0 where
  length := length_replicate
  square row member := by rw [eq_of_mem_replicate member, length_replicate]
  marks i less := absurd less (Nat.not_lt_zero _)

namespace Selected

variable (selected : tree.Selected allNodes)

include selected

theorem marks_maskLine (filled : Filled tree allNodes mask i) (isNode : allNodes[i]? = some node)
    (isPath : PathTo tree.parent node path) (isOther : allNodes[j]? = some other) :
    (tree.maskLine allNodes mask i)[j]? = some (decide (other ∈ path)) := by
  have itself : decide (j = i) = decide (other = node) := by
    rw [decide_eq_decide]
    constructor
    · rintro rfl
      exact Option.some.inj (isOther.symm.trans isNode)
    · rintro rfl
      rw [← selected.nodeId2Idx_eq isOther, selected.nodeId2Idx_eq isNode]
  rw [getElem?_maskLine mask i (List.getElem?_eq_some_iff.mp isOther).1, isNode,
    Option.bind_some, itself]
  cases isPath with
  | top isTop =>
    rw [isTop]
    simp only [Bool.or_false, mem_singleton]
  | @next _ up path isUp isPath =>
    obtain ⟨k, before, isPlace⟩ := selected.parent_place isNode isUp
    have member := mem_of_getElem? isPlace
    rw [isUp]
    simp only [selected.nodeId2Idx_eq isPlace,
      filled.marks k before up path isPlace isPath j other isOther, decide_eq_true member,
      Bool.true_and, ← Bool.decide_or, mem_append, mem_singleton]
    exact congrArg some (decide_eq_decide.mpr or_comm)

theorem filled_set (filled : Filled tree allNodes mask i) (less : i < allNodes.length) :
    Filled tree allNodes (mask.set i (tree.maskLine allNodes mask i)) (i + 1) := by
  refine ⟨by rw [length_set, filled.length], fun row member => ?_, ?_⟩
  · rcases mem_or_eq_of_mem_set member with member | rfl
    · exact filled.square row member
    · exact length_maskLine mask i
  · intro k less' node path isNode isPath j other isOther
    rcases lt_or_eq_of_le (Nat.le_of_lt_succ less') with before | same
    · have kept : (mask.set i (tree.maskLine allNodes mask i)).getD k [] = mask.getD k [] := by
        rw [getD_eq_getElem?_getD, getElem?_set_ne (ne_of_gt before), getD_eq_getElem?_getD]
      rw [kept]
      exact filled.marks k before node path isNode isPath j other isOther
    · subst same
      have row : (mask.set k (tree.maskLine allNodes mask k)).getD k [] =
          tree.maskLine allNodes mask k := by
        rw [getD_eq_getElem?_getD, getElem?_set_self (by rwa [filled.length]), Option.getD_some]
      rw [row, getD_eq_getElem?_getD,
        selected.marks_maskLine filled isNode isPath isOther, Option.getD_some]

theorem filled_treeMask : Filled tree allNodes (tree.treeMask allNodes) allNodes.length := by
  have rows : ∀ count ≤ allNodes.length, Filled tree allNodes ((List.range count).foldl
        (fun mask i => mask.set i (tree.maskLine allNodes mask i))
        (List.replicate allNodes.length (List.replicate allNodes.length false))) count := by
    intro count le
    induction count with
    | zero => exact Filled.first
    | succ count ih =>
      rw [range_succ, foldl_append]
      exact selected.filled_set (ih (Nat.le_of_succ_le le)) le
  exact rows allNodes.length (le_refl _)

/-! ### Leaves -/

omit [LogScore Score] selected in
theorem mem_leafNodes (inside : ∀ node ∈ allNodes, node < tree.nodes.length) :
    node ∈ tree.leafNodes allNodes ↔
      node ∈ allNodes ∧ ∀ child ∈ allNodes, tree.parent child ≠ some node := by
  rw [leafNodes, mem_filter, Bool.not_eq_true', ← Bool.not_eq_true, any_eq_true]
  refine and_congr_right fun _ => ⟨fun noChild child isChild isUp => ?_, ?_⟩
  · exact noChild ⟨child, mem_childrenOf.mpr ⟨inside child isChild, isUp⟩, decide_eq_true isChild⟩
  · rintro noChild ⟨child, isChild, selects⟩
    exact noChild child (of_decide_eq_true selects) (mem_childrenOf.mp isChild).2

theorem exists_leaf (member : node ∈ allNodes) :
    ∃ leaf path, leaf ∈ tree.leafNodes allNodes ∧ PathTo tree.parent leaf path ∧ node ∈ path := by
  induction height : tree.nodes.length - node using Nat.strongRecOn generalizing node with
  | ind height ih =>
    by_cases noChild : ∀ child ∈ allNodes, tree.parent child ≠ some node
    · obtain ⟨path, isPath⟩ := exists_pathTo selected.sound.ordered (selected.inside node member)
      exact ⟨node, path, (mem_leafNodes selected.inside).mpr
        ⟨member, noChild⟩, isPath, isPath.self_mem⟩
    · push Not at noChild
      obtain ⟨child, isChild, isUp⟩ := noChild
      have inside := selected.inside child isChild
      have before := selected.sound.ordered child inside node isUp
      obtain ⟨leaf, path, isLeaf, isPath, onPath⟩ :=
        ih (tree.nodes.length - child) (by omega) isChild rfl
      obtain ⟨front, isFront, isPrefix⟩ := isPath.of_mem onPath
      refine ⟨leaf, path, isLeaf, isPath, isPrefix.subset ?_⟩
      cases isFront with
      | top isTop => nomatch isUp.symm.trans isTop
      | next isUp' isFront =>
        obtain rfl := Option.some.inj (isUp.symm.trans isUp')
        exact mem_append_left _ isFront.self_mem

omit [LogScore Score] selected in
theorem climb_eq (isPath : PathTo tree.parent node path)
    {fuel : Nat} (enough : path.length ≤ fuel) :
    tree.climb allNodes fuel (some node) =
      (path.map fun node => nodeId2Idx allNodes node + 1).reverse := by
  induction isPath generalizing fuel with
  | @top node isTop =>
    obtain ⟨fuel, rfl⟩ : ∃ more, fuel = more + 1 := Nat.exists_eq_add_of_le' enough
    rw [climb, isTop]
    cases fuel <;> rfl
  | @next node up path isUp _ ih =>
    rw [length_append, length_singleton] at enough
    obtain ⟨fuel, rfl⟩ : ∃ more, fuel = more + 1 :=
      Nat.exists_eq_add_of_le' (Nat.le_trans (Nat.le_add_left 1 _) enough)
    rw [climb, isUp, ih (Nat.le_of_add_le_add_right enough), map_append, reverse_append]
    rfl

omit selected in
theorem length_path_le (sound : Sound tree)
    (less : node < tree.nodes.length) (isPath : PathTo tree.parent node path) :
    path.length ≤ node + 1 := by
  induction isPath with
  | top => exact Nat.le_add_left ..
  | @next node up path isUp _ ih =>
    have before := sound.ordered node less up isUp
    rw [length_append, length_singleton]
    exact Nat.succ_le_succ (le_trans (ih (lt_trans before less)) before)

theorem retrievePath_eq (member : leaf ∈ allNodes) (isPath : PathTo tree.parent leaf path) :
    tree.retrievePath allNodes leaf =
      0 :: (path.map (nodeId2Idx allNodes)).map (· + 1) := by
  have inside := selected.inside leaf member
  have enough := length_path_le selected.sound inside isPath
  rw [retrievePath, climb_eq isPath (by omega), reverse_append, reverse_reverse, map_map]
  rfl

theorem forall₂_places (inside : path ⊆ allNodes) :
    List.Forall₂ (fun place node => allNodes[place]? = some node)
      (path.map (nodeId2Idx allNodes)) path := by
  rw [forall₂_map_left_iff, forall₂_same]
  intro node member
  obtain ⟨i, isNode⟩ := getElem?_of_mem (inside member)
  rw [selected.nodeId2Idx_eq isNode, isNode]

theorem places_eq {places : List Nat}
    (isPlaces : List.Forall₂ (fun place node => allNodes[place]? = some node) places path) :
    places = path.map (nodeId2Idx allNodes) := by
  induction isPlaces with
  | nil => rfl
  | cons isPlace _ ih =>
    rw [map_cons, ← ih, selected.nodeId2Idx_eq isPlace]

theorem leaf_of_retrievePath {leaf' : Nat} (isLeaf : leaf ∈ tree.leafNodes allNodes)
    (isLeaf' : leaf' ∈ tree.leafNodes allNodes)
    (same : tree.retrievePath allNodes leaf = tree.retrievePath allNodes leaf') :
    leaf = leaf' := by
  have last : ∀ leaf ∈ tree.leafNodes allNodes,
      (tree.retrievePath allNodes leaf).getLast? = some (nodeId2Idx allNodes leaf + 1) := by
    intro leaf isLeaf
    have member := (mem_filter.mp isLeaf).1
    obtain ⟨path, isPath⟩ := exists_pathTo selected.sound.ordered (selected.inside leaf member)
    rw [selected.retrievePath_eq member isPath]
    cases isPath with
    | top => rfl
    | next =>
      rw [map_append, map_append, ← cons_append]
      exact getLast?_concat ..
  have sameLast := (last leaf isLeaf).symm.trans ((congrArg _ same).trans (last leaf' isLeaf'))
  have samePlace := Nat.succ.inj (Option.some.inj sameLast)
  obtain ⟨i, isNode⟩ := getElem?_of_mem (mem_filter.mp isLeaf).1
  obtain ⟨j, isNode'⟩ := getElem?_of_mem (mem_filter.mp isLeaf').1
  rw [selected.nodeId2Idx_eq isNode, selected.nodeId2Idx_eq isNode'] at samePlace
  subst samePlace
  exact Option.some.inj (isNode.symm.trans isNode')

/-! ### The outputs -/

theorem maskLines (isNode : allNodes[i]? = some node)
    (isPath : PathTo tree.parent node path) (j : Nat) :
    (((tree.attentionMask allNodes)[i + 1]?.bind fun row => row[j]?) = some true) ↔
      j = 0 ∨ ∃ place other, j = place + 1 ∧ allNodes[place]? = some other ∧ other ∈ path := by
  have filled := selected.filled_treeMask
  have inside := (List.getElem?_eq_some_iff.mp isNode).1
  have insideMask : i < (tree.treeMask allNodes).length := by rwa [filled.length]
  have isRow : (tree.attentionMask allNodes)[i + 1]? =
      some (true :: (tree.treeMask allNodes)[i]) := by
    rw [attentionMask, getElem?_cons_succ, getElem?_map,
      getElem?_eq_getElem insideMask, Option.map_some]
  rw [isRow, Option.bind_some]
  cases j with
  | zero => exact ⟨fun _ => Or.inl rfl, fun _ => rfl⟩
  | succ j =>
    rw [getElem?_cons_succ]
    have mark : ∀ other, allNodes[j]? = some other →
        (tree.treeMask allNodes)[i][j]? = some (decide (other ∈ path)) := by
      intro other isOther
      have marks := filled.marks i inside node path isNode isPath j other isOther
      have insideRow : j < (tree.treeMask allNodes)[i].length := by
        rw [filled.square _ (getElem_mem ..)]
        exact (List.getElem?_eq_some_iff.mp isOther).1
      rw [getD_eq_getElem _ _ insideMask, getD_eq_getElem _ _ insideRow] at marks
      rw [getElem?_eq_getElem insideRow, marks]
    constructor
    · intro isMark
      have insideRow := (List.getElem?_eq_some_iff.mp isMark).1
      rw [filled.square _ (getElem_mem ..)] at insideRow
      have isOther := getElem?_eq_getElem insideRow
      rw [mark _ isOther] at isMark
      exact Or.inr ⟨j, _, rfl, isOther, of_decide_eq_true (Option.some.inj isMark)⟩
    · rintro (impossible | ⟨place, other, same, isOther, onPath⟩)
      · exact absurd impossible (Nat.succ_ne_zero j)
      · obtain rfl := Nat.succ.inj same
        rw [mark other isOther, decide_eq_true onPath]

theorem lines (some : allNodes ≠ []) (line : List Nat) :
    line ∈ (tree.leafNodes allNodes).map (tree.retrievePath allNodes) ↔
      tree.LeafLine allNodes line := by
  rw [mem_map]
  constructor
  · rintro ⟨leaf, isLeaf, rfl⟩
    obtain ⟨member, noChild⟩ := (mem_leafNodes selected.inside).mp isLeaf
    obtain ⟨path, isPath⟩ := exists_pathTo selected.sound.ordered (selected.inside leaf member)
    rw [selected.retrievePath_eq member isPath]
    exact .leaf member noChild isPath
      (selected.forall₂_places (isPath.subset selected.closed member))
  · rintro (none | ⟨member, noChild, isPath, isPlaces⟩)
    · exact absurd none some
    · refine ⟨_, (mem_leafNodes selected.inside).mpr ⟨member, noChild⟩, ?_⟩
      rw [selected.retrievePath_eq member isPath, selected.places_eq isPlaces]

theorem covered (some : allNodes ≠ []) (le : i ≤ allNodes.length) :
    ∃ line ∈ (tree.leafNodes allNodes).map (tree.retrievePath allNodes), i ∈ line := by
  have through : ∀ j node, allNodes[j]? = Option.some node →
      ∃ leaf ∈ tree.leafNodes allNodes, 0 ∈ tree.retrievePath allNodes leaf ∧
        j + 1 ∈ tree.retrievePath allNodes leaf := by
    intro j node isNode
    obtain ⟨leaf, path, isLeaf, isPath, onPath⟩ := selected.exists_leaf (mem_of_getElem? isNode)
    refine ⟨leaf, isLeaf, ?_⟩
    rw [selected.retrievePath_eq (mem_filter.mp isLeaf).1 isPath]
    refine ⟨mem_cons_self, mem_cons_of_mem _ (mem_map.mpr ⟨j, ?_, rfl⟩)⟩
    exact mem_map.mpr ⟨node, onPath, selected.nodeId2Idx_eq isNode⟩
  cases i with
  | zero =>
    obtain ⟨leaf, isLeaf, onLine, -⟩ :=
      through 0 _ (getElem?_eq_getElem (length_pos_of_ne_nil some))
    exact ⟨_, mem_map_of_mem isLeaf, onLine⟩
  | succ i =>
    obtain ⟨leaf, isLeaf, -, onLine⟩ := through i _ (getElem?_eq_getElem le)
    exact ⟨_, mem_map_of_mem isLeaf, onLine⟩

end Selected

/-- The outputs of a selection that has its parents are well-formed. -/
theorem Selected.wellFormed {maxDraftTokens : Int}
    (selected : tree.Selected (draftNodes sorted maxDraftTokens))
    (some : draftNodes sorted maxDraftTokens ≠ []) (sampleToken : Int) :
    tree.WellFormed sampleToken (draftNodes sorted maxDraftTokens)
      (tree.finalize sampleToken maxDraftTokens sorted) where
  tokens := rfl
  parents i node up isNode isUp := selected.parent_place isNode isUp
  positions := by
    refine ⟨?_, rfl, fun i node path isNode isPath => ?_⟩
    · show (_ :: List.map _ _).length = _
      rw [length_cons, length_map]
    · show (_ :: List.map _ _)[i + 1]? = _
      rw [getElem?_cons_succ, getElem?_map, isNode, Option.map_some,
        depthOf_eq selected.sound (selected.inside node (mem_of_getElem? isNode)) isPath]
  square := by
    have filled := selected.filled_treeMask
    refine ⟨?_, fun line member => ?_⟩
    · show (_ :: List.map _ _).length = _
      rw [length_cons, length_map, filled.length]
    · rcases mem_cons.mp member with rfl | member
      · rw [length_cons, length_replicate]
      · obtain ⟨row, isRow, rfl⟩ := mem_map.mp member
        rw [length_cons, filled.square row isRow]
  rootLine j := by
    show ((true :: List.replicate _ false)[j]? = Option.some true) ↔ _
    cases j with
    | zero => exact ⟨fun _ => rfl, fun _ => rfl⟩
    | succ j =>
      rw [getElem?_cons_succ, getElem?_replicate]
      constructor
      · intro isMark
        split at isMark
        · nomatch isMark
        · nomatch isMark
      · exact nofun
  maskLines i node path isNode isPath j := selected.maskLines isNode isPath j
  lines line := selected.lines some line
  nodup := List.Nodup.map_on (fun _ isLeaf _ isLeaf' same =>
    selected.leaf_of_retrievePath isLeaf isLeaf' same) (selected.nodup.filter _)
  covered i le := selected.covered some le

omit [LogScore Score] in
/-- Well-formed outputs come from a selection that has its parents. -/
theorem WellFormed.closed {sampleToken : Int} {out : TreeOutputs}
    (wellFormed : tree.WellFormed sampleToken allNodes out) : tree.Closed allNodes := by
  intro node member up isUp
  obtain ⟨i, isNode⟩ := getElem?_of_mem member
  obtain ⟨j, -, isPlace⟩ := wellFormed.parents i node up isNode isUp
  exact mem_of_getElem? isPlace

end TokenTree

end Mnn.Llm

/-!
# Equal scores in the draft

A node is selected without its parent only if both have one score and the selection ends
among the nodes with this score.
-/

namespace Mnn.Llm.TokenTree

open List

open Mnn.Foundation ParentTrees TopSelection

variable {Score : Type} [LogScore Score] {tree : TokenTree Score} {d2t : Int → Int}

theorem Sound.perm_getAllNodes (sound : Sound tree) :
    tree.getAllNodes.Perm (List.range tree.nodes.length) :=
  perm_visit sound.ordered

theorem mem_draftNodes {maxDraftTokens : Int} :
    node ∈ draftNodes sorted maxDraftTokens ↔ node ∈ sorted.take (sizeOfInt maxDraftTokens) := by
  rw [draftNodes, mem_mergeSort]

variable (tree) in
/-- The selection keeps a node and its parent together: their scores differ, or it does
not end among the nodes with their score. -/
def Together (size : Nat) : Prop :=
  ∀ node < tree.nodes.length, ∀ up, tree.parent node = some up →
    tree.scoreOf (some node) = tree.scoreOf (some up) →
      size ≤ better (fun node => tree.scoreOf (some node)) (List.range tree.nodes.length)
          (tree.scoreOf (some up)) ∨
        atLeast (fun node => tree.scoreOf (some node)) (List.range tree.nodes.length)
          (tree.scoreOf (some up)) ≤ size

section Sorted

variable {sorted : List Nat} {maxDraftTokens : Int} (sound : Sound tree)
  (ranked : Ranked (fun node => tree.scoreOf (some node)) (List.range tree.nodes.length) sorted)

include sound ranked

/-- The selection has the parents where it keeps them together. -/
theorem Together.closed (together : tree.Together (sizeOfInt maxDraftTokens)) :
    tree.Closed (draftNodes sorted maxDraftTokens) := by
  intro node member up isUp
  rw [mem_draftNodes] at member ⊢
  by_contra left
  have less := mem_range.mp (ranked.perm.mem_iff.mp (mem_of_mem_take member))
  have lessUp := lt_trans (sound.ordered node less up isUp) less
  have isSorted := ranked.perm.mem_iff.mpr (mem_range.mpr lessUp)
  rw [← take_append_drop (sizeOfInt maxDraftTokens) sorted, mem_append] at isSorted
  have dropped := isSorted.resolve_left left
  have same := le_antisymm (sound.score node less up isUp) (ranked.score_le member dropped)
  have ends := ranked.between member dropped same
  rw [same] at ends
  rcases together node less up isUp same with le | le
  · exact lt_irrefl _ (lt_of_lt_of_le ends.1 le)
  · exact lt_irrefl _ (lt_of_lt_of_le ends.2 le)

theorem selected_draftNodes (closed : tree.Closed (draftNodes sorted maxDraftTokens)) :
    tree.Selected (draftNodes sorted maxDraftTokens) where
  sound := sound
  inside node member := mem_range.mp (ranked.perm.mem_iff.mp
      (mem_of_mem_take (mem_draftNodes.mp member)))
  increases := by
    have nodup : (draftNodes sorted maxDraftTokens).Nodup := (mergeSort_perm ..).nodup_iff.mpr
        ((ranked.perm.nodup_iff.mpr nodup_range).sublist (take_sublist ..))
    have increases : (draftNodes sorted maxDraftTokens).Pairwise (· ≤ ·) := pairwise_mergeSort' ..
    exact (increases.and nodup).imp fun both => lt_of_le_of_ne both.1 both.2
  closed := closed

end Sorted

/-- The draft is well-formed for every order of equal scores if and only if there are
nodes, some are asked for, and no node is separated from its parent. -/
theorem finalize_wellFormed_iff {tree : TokenTree Score} (reached : Reached d2t tree)
    (sampleToken maxDraftTokens : Int) :
    (∀ sorted, Ranked (fun node => tree.scoreOf (some node)) tree.getAllNodes sorted →
        tree.WellFormed sampleToken (draftNodes sorted maxDraftTokens)
          (tree.finalize sampleToken maxDraftTokens sorted)) ↔
      tree.nodes ≠ [] ∧ sizeOfInt maxDraftTokens ≠ 0 ∧
        tree.Together (sizeOfInt maxDraftTokens) := by
  have sound := reached.sound.1
  have perm := sound.perm_getAllNodes
  constructor
  · intro wellFormed
    obtain ⟨sorted, ranked⟩ := exists_ranked (fun node => tree.scoreOf (some node)) tree.getAllNodes
    have some : draftNodes sorted maxDraftTokens ≠ [] := by
      intro none
      have isWellFormed := wellFormed sorted ranked
      rw [none] at isWellFormed
      have isLine := (isWellFormed.lines [0]).mpr (.root rfl)
      change [0] ∈ (tree.leafNodes (draftNodes sorted maxDraftTokens)).map _ at isLine
      rw [none] at isLine
      exact absurd isLine not_mem_nil
    have length : (draftNodes sorted maxDraftTokens).length =
        min (sizeOfInt maxDraftTokens) tree.nodes.length := by
      rw [draftNodes, length_mergeSort, length_take, ranked.perm.length_eq,
        perm.length_eq, length_range]
    have pos := length_pos_of_ne_nil some
    rw [length, Nat.lt_min] at pos
    refine ⟨ne_nil_of_length_pos pos.2, ne_of_gt pos.1, ?_⟩
    intro node less up isUp same
    by_contra between
    push Not at between
    have lessUp := sound.ordered node less up isUp
    rw [← same] at between
    obtain ⟨sorted, ranked, first, second⟩ := exists_ranked_between nodup_range
      (mem_range.mpr less) (mem_range.mpr (lt_trans lessUp less))
      (ne_of_gt lessUp) same between.1 between.2
    have closed := (wellFormed sorted ⟨ranked.perm.trans perm.symm, ranked.falls⟩).closed
    exact second (mem_draftNodes.mp (closed node (mem_draftNodes.mpr first) up isUp))
  · rintro ⟨some, size, together⟩ sorted ranked
    have ranked : Ranked (fun node => tree.scoreOf (Option.some node))
        (List.range tree.nodes.length) sorted := ⟨ranked.perm.trans perm, ranked.falls⟩
    have selected := selected_draftNodes sound ranked (together.closed sound ranked)
    refine selected.wellFormed (ne_nil_of_length_pos ?_) sampleToken
    rw [draftNodes, length_mergeSort, length_take, ranked.perm.length_eq, length_range]
    exact lt_min (Nat.pos_of_ne_zero size) (length_pos_of_ne_nil some)

/-! ## Two equal scores -/

/-- Integers are added without rounding. -/
instance : LogScore Int :=
  { (inferInstance : LinearOrder Int) with
    add := (· + ·)
    zero := 0
    add_le := fun total score (le : score ≤ 0) =>
      (show total + score ≤ total from by omega) }

/-- Two certain tokens, one below the other. -/
def certain : TokenTree Int where
  mTopK := 1
  nodes := [⟨5, 0, 0, 0, none⟩, ⟨6, 0, 0, 1, some 0⟩]
  mActives := [1]
  mMask := [[true, true]]

theorem ranked_certain (perm : sorted.Perm [0, 1]) :
    Ranked (fun node => certain.scoreOf (some node)) [0, 1] sorted := by
  refine ⟨perm, pairwise_of_forall_mem_list fun node member node' member' => ?_⟩
  have zero : ∀ node ∈ [0, 1], certain.scoreOf (some node) = 0 := by decide
  rw [zero node (perm.mem_iff.mp member), zero node' (perm.mem_iff.mp member')]

theorem reached_certain : Reached (fun token => token) certain := by
  have first : Reached (fun token => token)
      ((new Int 1).init (fun token => token) (fun _ => 5) fun _ => 0) :=
    .init fun _ _ => le_refl _
  have grown := @Grow.prune Int _ (fun token => token)
    ((new Int 1).init (fun token => token) (fun _ => 5) fun _ => 0) (fun _ => 6)
    (fun _ => 0) [1] (by decide) ⟨List.Perm.refl _, pairwise_singleton ..⟩
  exact .grow first (fun _ _ => le_refl _) grown

/-- Both tokens are a draft. -/
theorem certain_wellFormed :
    certain.WellFormed 7 (draftNodes [1, 0] 2) (certain.finalize 7 2 [1, 0]) :=
  (finalize_wellFormed_iff reached_certain 7 2).mpr
    ⟨by decide, by decide, fun _ _ _ _ _ => Or.inr (length_filter_le ..)⟩ [1, 0] (ranked_certain (List.Perm.swap ..))

/-- The second token is selected without the first one, and the mask hides the first one. -/
theorem not_certain_wellFormed :
    Reached (fun token => token) certain ∧
      Ranked (fun node => certain.scoreOf (some node)) certain.getAllNodes [1, 0] ∧
      ¬ certain.WellFormed 7 (draftNodes [1, 0] 1) (certain.finalize 7 1 [1, 0]) := by
  refine ⟨reached_certain, ranked_certain (List.Perm.swap ..), fun wellFormed => ?_⟩
  have selected : 1 ∈ draftNodes [1, 0] 1 := mem_draftNodes.mpr (by decide)
  have isParent := mem_draftNodes.mp (wellFormed.closed 1 selected 0 rfl)
  exact absurd isParent (by decide)

end Mnn.Llm.TokenTree
