import Mnn.Foundation.ParentTrees
import Mnn.Foundation.TopSelection

/-!
# The Eagle draft tree

Each round adds `topK` children to each active node, and the best of them are the active
nodes of the next round.  In the end the best nodes of the tree are the draft.  Where
scores are equal, a sort may leave them in any order.
-/

namespace Mnn.Llm

open Mnn.Foundation ParentTrees TopSelection
open List

/-- Logarithms of probabilities, with a sum that may be rounded: a score that is not
positive does not make it larger. -/
class LogScore (Score : Type) extends LinearOrder Score, Add Score, Zero Score where
  add_le : ∀ total score : Score, score ≤ 0 → total + score ≤ total

/-- A node; its `mNodeId` is its place among the nodes, and the root is no node. -/
structure TokenTreeNode (Score : Type) where
  mTokenId : Int
  mLogProb : Score
  mCumulativeLogProb : Score
  mDepth : Int
  mParent : Option Nat
  deriving DecidableEq

structure TokenTree (Score : Type) where
  mTopK : Nat
  /-- The nodes in the order of `mCounter`. -/
  nodes : List (TokenTreeNode Score)
  mActives : List Nat
  mMask : List (List Bool)

structure TreeOutputs where
  draftTokens : List Int
  positionIds : List Int
  attentionMask : List (List Bool)
  retrieveIndices : List (List Nat)
  deriving DecidableEq

namespace TokenTree

/-! ## Growing -/

/-- `new TokenTree(topK)`, with the diagonal as its mask. -/
def new (Score : Type) (topK : Nat) : TokenTree Score where
  mTopK := topK
  nodes := []
  mActives := []
  mMask := (List.range topK).map fun i => (List.range topK).map fun j => decide (j = i)

variable {Score : Type}

section Node

variable (tree : TokenTree Score)

def mCounter : Nat := tree.nodes.length

def parent (node : Nat) : Option Nat := (tree.nodes[node]?).bind TokenTreeNode.mParent

def mChildren (node : Nat) : List Nat := childrenOf tree.parent tree.nodes.length (some node)

/-- The depth of a node; that of the root is `-1`. -/
def depthOf : Option Nat → Int
  | none => -1
  | some node => ((tree.nodes[node]?).map TokenTreeNode.mDepth).getD (-1)

def tokenOf (node : Nat) : Int := ((tree.nodes[node]?).map TokenTreeNode.mTokenId).getD (-1)

/-- `getAllNodes`, with a queue. -/
def getAllNodes : List Nat :=
  visit tree.mChildren tree.nodes.length (childrenOf tree.parent tree.nodes.length none)

end Node

variable [LogScore Score]

/-- The score of a node; that of the root is zero. -/
def scoreOf (tree : TokenTree Score) : Option Nat → Score
  | none => 0
  | some node => ((tree.nodes[node]?).map TokenTreeNode.mCumulativeLogProb).getD 0

/-- The constructor of a node. -/
def newNode (tree : TokenTree Score) (tokenId : Int) (logProb : Score)
    (parent : Option Nat) : TokenTreeNode Score where
  mTokenId := tokenId
  mLogProb := logProb
  mCumulativeLogProb := tree.scoreOf parent + logProb
  mDepth := tree.depthOf parent + 1
  mParent := parent

variable (d2t : Int → Int)

def init (tree : TokenTree Score) (indices : Nat → Int) (scores : Nat → Score) : TokenTree Score :=
  { tree with
    nodes := tree.nodes ++ (List.range tree.mTopK).map fun i =>
      tree.newNode (d2t (indices i)) (scores i) none
    mActives := tree.mActives ++ (List.range tree.mTopK).map fun i => tree.mCounter + i }

/-- The children of the active nodes, one parent after the other. -/
def newChildren (tree : TokenTree Score) (indices : Nat → Int) (scores : Nat → Score) :
    List (TokenTreeNode Score) :=
  tree.mActives.zipIdx.flatMap fun active =>
    (List.range tree.mTopK).map fun j =>
      tree.newNode (d2t (indices (active.2 * tree.mTopK + j)))
        (scores (active.2 * tree.mTopK + j)) (some active.1)

/-- The tree with the children. -/
def addChildren (tree : TokenTree Score) (indices : Nat → Int) (scores : Nat → Score) :
    TokenTree Score :=
  { tree with nodes := tree.nodes ++ tree.newChildren d2t indices scores }

/-- The nodes that were added to a tree. -/
def candidates (tree grown : TokenTree Score) : List Nat :=
  List.range' tree.mCounter (grown.mCounter - tree.mCounter)

/-- `parant2index`: the last place of a node among the active ones. -/
def parant2index (tree : TokenTree Score) (node : Option Nat) : Nat :=
  ((tree.mActives.zipIdx.filter fun active => decide (some active.1 = node)).getLast?.map
    Prod.snd).getD 0

/-- The row of the mask of the `i`-th active node, behind the row of its parent. -/
def newMaskLine (tree : TokenTree Score) (i idx : Nat) : List Bool :=
  tree.mMask.getD idx [] ++ (List.range tree.mTopK).map fun j => decide (j = i)

/-- The first `topK` of the sorted candidates are active. -/
def prune (tree grown : TokenTree Score) (sorted : List Nat) : TokenTree Score :=
  { grown with
    mActives := sorted.take tree.mTopK
    mMask := (sorted.take tree.mTopK).zipIdx.map fun active =>
      tree.newMaskLine active.2 (tree.parant2index (grown.parent active.1)) }

/-- `grow`; the mask has a first row. -/
inductive Grow (tree : TokenTree Score) (indices : Nat → Int) (scores : Nat → Score) :
    TokenTree Score → Prop
  | prune {sorted : List Nat} :
      tree.mMask ≠ [] →
        Ranked (fun node => (tree.addChildren d2t indices scores).scoreOf (some node))
          (tree.candidates (tree.addChildren d2t indices scores)) sorted →
        Grow tree indices scores (tree.prune (tree.addChildren d2t indices scores) sorted)

/-- The trees after any number of rounds with scores that are not positive. -/
inductive Reached : TokenTree Score → Prop
  | init {topK : Nat} {indices : Nat → Int} {scores : Nat → Score} :
      (∀ i < topK, scores i ≤ 0) → Reached ((new Score topK).init d2t indices scores)
  | grow {tree tree' : TokenTree Score} {indices : Nat → Int} {scores : Nat → Score} :
      Reached tree → (∀ i < tree.mActives.length * tree.mTopK, scores i ≤ 0) →
        Grow d2t tree indices scores tree' → Reached tree'

/-! ## The draft -/

/-- An `int` that is compared with a `size_t`. -/
def sizeOfInt (maxDraftTokens : Int) : Nat := (maxDraftTokens % 2 ^ 64).toNat

/-- The best nodes by their ids. -/
def draftNodes (sorted : List Nat) (maxDraftTokens : Int) : List Nat :=
  (sorted.take (sizeOfInt maxDraftTokens)).mergeSort

/-- `nodeId2Idx`; an id that is not there is entered with zero. -/
def nodeId2Idx (allNodes : List Nat) (node : Nat) : Nat :=
  if node ∈ allNodes then allNodes.idxOf node else 0

section Outputs

variable (tree : TokenTree Score)

/-- The row of a node: itself and the row of its parent, if that is in the draft. -/
def maskLine (allNodes : List Nat) (mask : List (List Bool)) (i : Nat) : List Bool :=
  (List.range allNodes.length).map fun j =>
    decide (j = i) ||
      match allNodes[i]?.bind tree.parent with
      | some up => decide (up ∈ allNodes) &&
          (mask.getD (nodeId2Idx allNodes up) []).getD j false
      | none => false

/-- The rows are filled in one after the other. -/
def treeMask (allNodes : List Nat) : List (List Bool) := (List.range allNodes.length).foldl
    (fun mask i => mask.set i (tree.maskLine allNodes mask i))
    (List.replicate allNodes.length (List.replicate allNodes.length false))

/-- The mask with the sampled token. -/
def attentionMask (allNodes : List Nat) : List (List Bool) :=
  (true :: List.replicate allNodes.length false) ::
    (tree.treeMask allNodes).map fun line => true :: line

def leafNodes (allNodes : List Nat) : List Nat := allNodes.filter fun node =>
    !(tree.mChildren node).any fun child => decide (child ∈ allNodes)

/-- The way from a node to the root. -/
def climb (allNodes : List Nat) : Nat → Option Nat → List Nat
  | 0, _ => []
  | _ + 1, none => []
  | fuel + 1, some curr =>
    (nodeId2Idx allNodes curr + 1) :: climb allNodes fuel (tree.parent curr)

def retrievePath (allNodes : List Nat) (leaf : Nat) : List Nat :=
  (tree.climb allNodes (tree.nodes.length + 1) (some leaf) ++ [0]).reverse

/-- `finalize`, once the nodes are sorted by their scores. -/
def finalize (sampleToken : Int) (maxDraftTokens : Int) (sorted : List Nat) :
    TreeOutputs :=
  let allNodes := draftNodes sorted maxDraftTokens
  { draftTokens := sampleToken :: allNodes.map tree.tokenOf
    positionIds := 0 :: allNodes.map fun node => tree.depthOf (some node) + 1
    attentionMask := tree.attentionMask allNodes
    retrieveIndices := (tree.leafNodes allNodes).map (tree.retrievePath allNodes) }

end Outputs

end TokenTree

end Mnn.Llm

/-!
# The shape of the draft

The draft is a tree if it has the parents of its nodes.  Scores do not rise from a node
to its children, so a parent is only left out for a child with the same score, where the
selection ends among the nodes with this score.
-/

namespace Mnn.Llm.TokenTree

open Mnn.Foundation ParentTrees TopSelection
open List

variable {Score : Type}

/-! ## Growing -/

section Nodes

variable {tree tree' : TokenTree Score} {added : List (TokenTreeNode Score)}

section

variable (isAppend : tree'.nodes = tree.nodes ++ added)

include isAppend

theorem getElem?_of_append {node : Nat}
    (less : node < tree.nodes.length) : tree'.nodes[node]? = tree.nodes[node]? := by
  rw [isAppend, List.getElem?_append_left less]

theorem parent_of_append {node : Nat}
    (less : node < tree.nodes.length) : tree'.parent node = tree.parent node := by
  rw [parent, getElem?_of_append isAppend less, parent]

theorem depthOf_of_append {node : Option Nat} (less : ∀ i, node = some i → i < tree.nodes.length) :
    tree'.depthOf node = tree.depthOf node := by
  cases node with
  | none => rfl
  | some node => rw [depthOf, getElem?_of_append isAppend (less node rfl), depthOf]

end

theorem scoreOf_of_append [LogScore Score] (isAppend : tree'.nodes = tree.nodes ++ added)
    {node : Option Nat} (less : ∀ i, node = some i → i < tree.nodes.length) :
    tree'.scoreOf node = tree.scoreOf node := by
  cases node with
  | none => rfl
  | some node => rw [scoreOf, getElem?_of_append isAppend (less node rfl), scoreOf]

end Nodes

variable [LogScore Score]

/-- What holds of the nodes after every round. -/
structure Sound (tree : TokenTree Score) : Prop where
  ordered : Ordered tree.parent tree.nodes.length
  depth : ∀ node < tree.nodes.length, tree.depthOf (some node) = tree.depthOf (tree.parent node) + 1
  score : ∀ node < tree.nodes.length, ∀ up, tree.parent node = some up →
    tree.scoreOf (some node) ≤ tree.scoreOf (some up)

/-- The node was made below a node of the tree, or below the root. -/
def Made (tree : TokenTree Score) (node : TokenTreeNode Score) : Prop :=
  ∃ tokenId logProb up, node = tree.newNode tokenId logProb up ∧ logProb ≤ 0 ∧
    ∀ i, up = some i → i < tree.nodes.length

variable {tree tree' : TokenTree Score}

theorem Sound.append (sound : Sound tree)
    {added : List (TokenTreeNode Score)} (isAppend : tree'.nodes = tree.nodes ++ added)
    (made : ∀ node ∈ added, tree.Made node) : Sound tree' := by
  have cases : ∀ node < tree'.nodes.length, node < tree.nodes.length ∨ (tree.nodes.length ≤ node ∧
        ∃ value, tree'.nodes[node]? = some value ∧ tree.Made value) := by
    intro node less
    rcases lt_or_ge node tree.nodes.length with old | le
    · exact Or.inl old
    · rw [isAppend, length_append] at less
      have inside : node - tree.nodes.length < added.length := by omega
      refine Or.inr ⟨le, added[node - tree.nodes.length], ?_, made _ (getElem_mem ..)⟩
      rw [isAppend, List.getElem?_append_right le, List.getElem?_eq_getElem inside]
  have isParent : ∀ {node : Nat} {value : TokenTreeNode Score},
      tree'.nodes[node]? = some value → tree'.parent node = value.mParent := by
    intro node value isValue
    rw [parent, isValue]
    rfl
  refine ⟨fun node less up isUp => ?_, fun node less => ?_, fun node less up isUp => ?_⟩
  · rcases cases node less with old | ⟨le, value, isValue, _, _, above, rfl, -, inside⟩
    · rw [parent_of_append isAppend old] at isUp
      exact sound.ordered node old up isUp
    · rw [isParent isValue] at isUp
      exact lt_of_lt_of_le (inside up isUp) le
  · rcases cases node less with old | ⟨-, value, isValue, _, _, above, rfl, -, inside⟩
    · have old' : ∀ i, tree.parent node = some i → i < tree.nodes.length := fun i isUp =>
        lt_trans (sound.ordered node old i isUp) old
      rw [parent_of_append isAppend old, depthOf_of_append isAppend old',
        depthOf_of_append isAppend fun i same => Option.some.inj same ▸ old]
      exact sound.depth node old
    · rw [isParent isValue]
      show ((tree'.nodes[node]?).map TokenTreeNode.mDepth).getD (-1) = tree'.depthOf above + 1
      rw [isValue, depthOf_of_append isAppend inside]
      rfl
  · rcases cases node less with old | ⟨-, value, isValue, _, logProb, above, rfl, le, inside⟩
    · rw [parent_of_append isAppend old] at isUp
      have old' := lt_trans (sound.ordered node old up isUp) old
      rw [scoreOf_of_append isAppend fun i same => Option.some.inj same ▸ old,
        scoreOf_of_append isAppend fun i same => Option.some.inj same ▸ old']
      exact sound.score node old up isUp
    · rw [isParent isValue] at isUp
      change above = some up at isUp
      subst isUp
      show ((tree'.nodes[node]?).map TokenTreeNode.mCumulativeLogProb).getD 0 ≤ _
      rw [isValue, scoreOf_of_append isAppend inside]
      exact LogScore.add_le _ _ le

theorem Sound.congr (sound : Sound tree) (same : tree'.nodes = tree.nodes) : Sound tree' :=
  sound.append (by rw [same, append_nil]) fun _ member =>
    absurd member not_mem_nil

variable {d2t : Int → Int}

/-- The nodes are sound after every round, and the active nodes are there. -/
theorem Reached.sound (reached : Reached d2t tree) :
    Sound tree ∧ ∀ node ∈ tree.mActives, node < tree.nodes.length := by
  induction reached with
  | @init topK indices scores nonpos =>
    have empty : Sound (new Score topK) :=
      ⟨fun _ less => absurd less (Nat.not_lt_zero _), fun _ less => absurd less (Nat.not_lt_zero _),
        fun _ less => absurd less (Nat.not_lt_zero _)⟩
    refine ⟨empty.append rfl fun node member => ?_, fun node member => ?_⟩
    · obtain ⟨i, inside, rfl⟩ := mem_map.mp member
      exact ⟨_, _, none, rfl, nonpos i (mem_range.mp inside),
        fun _ impossible => nomatch impossible⟩
    · obtain ⟨i, inside, rfl⟩ := mem_map.mp member
      show 0 + i < ([] ++ List.map _ (List.range topK)).length
      rw [nil_append, length_map, length_range, Nat.zero_add]
      exact mem_range.mp inside
  | @grow tree tree' indices scores _ nonpos grows ih =>
    obtain ⟨sound, inside⟩ := ih
    cases grows with
    | @prune sorted _ ranked =>
      have grown : Sound (tree.addChildren d2t indices scores) := by
        refine sound.append rfl fun node member => ?_
        obtain ⟨active, isActive, member⟩ := mem_flatMap.mp member
        obtain ⟨j, isPlace, rfl⟩ := mem_map.mp member
        obtain ⟨node, place⟩ := active
        obtain ⟨-, less, isNode⟩ := mem_zipIdx isActive
        rw [Nat.zero_add] at less
        refine ⟨_, _, some node, rfl, nonpos _ ?_, fun i same => ?_⟩
        · have isPlace := mem_range.mp isPlace
          calc
            place * tree.mTopK + j < place * tree.mTopK + tree.mTopK :=
              Nat.add_lt_add_left isPlace _
            _ = (place + 1) * tree.mTopK := (Nat.succ_mul ..).symm
            _ ≤ tree.mActives.length * tree.mTopK := Nat.mul_le_mul_right _ less
        · obtain rfl := Option.some.inj same
          rw [isNode]
          exact inside _ (getElem_mem ..)
      refine ⟨grown.congr rfl, fun node member => ?_⟩
      have isCandidate := ranked.perm.mem_iff.mp (mem_of_mem_take member)
      obtain ⟨i, less, rfl⟩ := mem_range'.mp isCandidate
      show _ < (tree.addChildren d2t indices scores).nodes.length
      unfold mCounter at less ⊢
      omega

end Mnn.Llm.TokenTree
