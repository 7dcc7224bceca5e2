import Mnn.Converter.OpGraph
import Mnn.Foundation.Marking

/-!
# Dead shape operators

`RemoveDeadShapeOp` marks the operators that the declared outputs need, and
removes the others if their type is in a list.  An operator which is not in the
list and not needed stays, and may have lost what it reads.
-/

namespace Mnn.Converter.DeadShapeOps

open Mnn.Converter.OpGraph
open Mnn.Foundation.Marking
open List

inductive OpType
  | Shape
  | Rank
  | Size
  | Unsqueeze
  | Squeeze
  | Concat
  | StridedSlice
  | GatherV2
  | BinaryOp
  | Const
  | RoPE
  | Attention
  | other (type : Nat)
  deriving DecidableEq

/-- `NetT`; its indexes are those of tensors, and a tensor has one producer. -/
structure NetT where
  oplists : List (OpT OpType)
  tensorName : List String
  outputName : List String
  hasSubgraphs : Bool
  inRange : ∀ op ∈ oplists, ∀ t ∈ op.inputIndexes ++ op.outputIndexes, t < tensorName.length
  single : SingleProducers oplists

def kMinimalWhitelist : List OpType := [.Shape, .Rank, .Size]

def kShapeArithWhitelist : List OpType :=
  [.Shape, .Rank, .Size, .Unsqueeze, .Squeeze, .Concat, .StridedSlice, .GatherV2, .BinaryOp, .Const]

namespace NetT

variable (net : NetT)

def hasFusedTransformer : Bool :=
  net.oplists.any fun op => op.kind.type == .RoPE || op.kind.type == .Attention

def wideScope : Bool := net.hasFusedTransformer && !net.hasSubgraphs

def kShapeOpWhitelist : List OpType :=
  if net.wideScope then kShapeArithWhitelist else kMinimalWhitelist

/-- The producers after the loop over the outputs of an operator. -/
def recordOutputs (producer : Int → Option Nat) (place : OpT OpType × Nat) : Int → Option Nat :=
  place.1.outputIndexes.foldl
    (fun producer (out : Int) =>
      if 0 ≤ out ∧ out < net.tensorName.length then
        Function.update producer out (some place.2)
      else
        producer)
    producer

def producer : Int → Option Nat :=
  net.oplists.zipIdx.foldl net.recordOutputs fun _ => none

/-- The tensors with the name of a declared output; the last one is the top of the stack. -/
def roots : List Int :=
  (((range net.tensorName.length).filter fun t =>
    net.tensorName.getD t "" ∈ net.outputName).map Int.ofNat).reverse

def inputsOf (i : Nat) : List Int := (net.oplists[i]?.map OpT.inputIndexes).getD []

/-- Each operator puts its inputs on the stack once. -/
def fuel : Nat := net.roots.length + ∑ i ∈ Finset.range net.oplists.length, (net.inputsOf i).length

def reachable : Option (List Nat) := mark net.producer net.inputsOf net.fuel net.roots []

def deleteOp (reachable : List Nat) (i : Nat) (op : OpT OpType) : Bool :=
  i ∉ reachable && op.kind.type ∈ net.kShapeOpWhitelist

/-- The operators that are left, with the places that they had. -/
def kept (reachable : List Nat) : List (OpT OpType × Nat) :=
  net.oplists.zipIdx.filter fun place => !net.deleteOp reachable place.2 place.1

/-- `RemoveDeadShapeOp::onExecute`, up to the operators of the net. -/
def onExecute : Option (List (OpT OpType)) :=
  if net.roots = [] then
    some net.oplists
  else do
    let reachable ← net.reachable
    return (net.kept reachable).map Prod.fst

end NetT

/-! ## What is to be kept -/

namespace NetT

/-- A declared output is reachable from the operator. -/
inductive Needed (net : NetT) : Nat → Prop
  | output {t : Nat} {i : Nat} {op : OpT OpType} : net.tensorName.getD t "" ∈ net.outputName →
      t < net.tensorName.length → net.oplists[i]? = some op → (t : Int) ∈ op.outputIndexes → Needed net i
  | input {t : Int} {i j : Nat} {op reader : OpT OpType} : Needed net j → net.oplists[j]? = some reader →
      0 ≤ t → t ∈ reader.inputIndexes → net.oplists[i]? = some op → t ∈ op.outputIndexes → Needed net i

/-- What the pass is to keep of a net. -/
structure Preserved (net : NetT) (ops : List (OpT OpType)) : Prop where
  isPart : ops <+ net.oplists
  needed : ∀ i op, net.Needed i → net.oplists[i]? = some op → op ∈ ops
  closed : ∀ op ∈ ops, ∀ t ∈ op.inputIndexes, 0 ≤ t → Produced net.oplists t → Produced ops t
  values : ∀ (Value : Type) (semantics : Kind OpType → List (Option Value) → List Value) (t : Int)
    (value : Value), Produced ops t → (Holds semantics ops t value ↔ Holds semantics net.oplists t value)

/-- Operators that stay without being needed read nothing of those that go. -/
def StaysClosed (net : NetT) : Prop :=
  ∀ i j op reader, net.oplists[i]? = some op → ¬net.Needed i → op.kind.type ∈ net.kShapeOpWhitelist →
    net.oplists[j]? = some reader → ¬net.Needed j → reader.kind.type ∉ net.kShapeOpWhitelist →
      ∀ t ∈ reader.inputIndexes, 0 ≤ t → t ∉ op.outputIndexes

/-- A declared output names a tensor. -/
def HasOutput (net : NetT) : Prop :=
  ∃ t < net.tensorName.length, net.tensorName.getD t "" ∈ net.outputName

/-! ## Producers -/

variable {net : NetT}

theorem recordOutputs_apply (producer : Int → Option Nat) (place : OpT OpType × Nat) (t : Int) :
    net.recordOutputs producer place t =
      if t ∈ place.1.outputIndexes ∧ 0 ≤ t ∧ t < net.tensorName.length then some place.2
      else producer t := by
  rw [recordOutputs]
  induction place.1.outputIndexes generalizing producer with
  | nil => rw [foldl_nil, if_neg fun isIn => not_mem_nil isIn.1]
  | cons out outs ih =>
    rw [foldl_cons, ih]
    by_cases isLater : t ∈ outs ∧ 0 ≤ t ∧ t < net.tensorName.length
    · rw [if_pos isLater, if_pos ⟨mem_cons_of_mem _ isLater.1, isLater.2⟩]
    · rw [if_neg isLater]
      by_cases isHere : t = out
      · subst isHere
        by_cases isTensor : 0 ≤ t ∧ t < net.tensorName.length
        · rw [if_pos isTensor, if_pos ⟨mem_cons_self, isTensor⟩, Function.update_self]
        · rw [if_neg isTensor, if_neg fun both => isTensor both.2]
      · have notIn : ¬(t ∈ out :: outs ∧ 0 ≤ t ∧ t < net.tensorName.length) := fun both =>
          isLater ⟨(List.mem_cons.mp both.1).resolve_left isHere, both.2⟩
        rw [if_neg notIn]
        split_ifs
        · exact Function.update_of_ne isHere _ _
        · rfl

theorem foldl_recordOutputs_cases (places : List (OpT OpType × Nat)) (producer : Int → Option Nat)
    (t : Int) :
    (∃ place ∈ places, t ∈ place.1.outputIndexes ∧ 0 ≤ t ∧
        places.foldl net.recordOutputs producer t = some place.2) ∨
      (∀ place ∈ places, t ∈ place.1.outputIndexes → 0 ≤ t → net.tensorName.length ≤ t) ∧
        places.foldl net.recordOutputs producer t = producer t := by
  induction places generalizing producer with
  | nil => exact Or.inr ⟨fun _ isMem => absurd isMem not_mem_nil, rfl⟩
  | cons place places ih =>
    rcases ih (net.recordOutputs producer place) with ⟨later, isMem, found⟩ | ⟨notLater, same⟩
    · exact Or.inl ⟨later, mem_cons_of_mem _ isMem, found⟩
    · rw [foldl_cons, same, recordOutputs_apply]
      by_cases isHere : t ∈ place.1.outputIndexes ∧ 0 ≤ t ∧ t < net.tensorName.length
      · exact Or.inl ⟨place, mem_cons_self, isHere.1, isHere.2.1, if_pos isHere⟩
      · refine Or.inr ⟨fun other isMem isOutput isTensor => ?_, if_neg isHere⟩
        rcases List.mem_cons.mp isMem with rfl | isMem
        · exact le_of_not_gt fun less => isHere ⟨isOutput, isTensor, less⟩
        · exact notLater other isMem isOutput isTensor

theorem producer_eq_some {t : Int} {i : Nat} :
    net.producer t = some i ↔
      0 ≤ t ∧ ∃ op, net.oplists[i]? = some op ∧ t ∈ op.outputIndexes := by
  rcases @foldl_recordOutputs_cases net net.oplists.zipIdx (fun _ => none) t with
    ⟨⟨op, j⟩, isPlace, isOutput, isTensor, found⟩ | ⟨notThere, found⟩
  · rw [mem_zipIdx_iff_getElem?] at isPlace
    rw [producer, found, Option.some_inj]
    constructor
    · rintro rfl
      exact ⟨isTensor, op, isPlace, isOutput⟩
    · rintro ⟨-, other, isOther, isOutput'⟩
      exact net.single.unique isPlace isOther isTensor isOutput isOutput'
  · rw [producer, found]
    refine ⟨nofun, ?_⟩
    rintro ⟨isTensor, op, isOp, isOutput⟩
    have less := net.inRange op (mem_of_getElem? isOp) t (mem_append_right _ isOutput)
    have behind := notThere (op, i) (mem_zipIdx_iff_getElem?.mpr isOp) isOutput isTensor
    exact absurd less (not_lt_of_ge behind)

/-! ## What is needed -/

theorem mem_roots {t : Int} :
    t ∈ net.roots ↔
      ∃ i < net.tensorName.length, net.tensorName.getD i "" ∈ net.outputName ∧ (i : Int) = t := by
  simp only [roots, mem_reverse, mem_map, mem_filter, mem_range, decide_eq_true_eq, and_assoc,
    Int.ofNat_eq_natCast]

theorem mem_inputsOf {i : Nat} {t : Int} :
    t ∈ net.inputsOf i ↔ ∃ op, net.oplists[i]? = some op ∧ t ∈ op.inputIndexes := by
  rw [inputsOf]
  cases isOp : net.oplists[i]? with
  | none => simp
  | some op => simp

theorem reached_iff_needed {i : Nat} :
    Reached net.producer net.inputsOf net.roots i ↔ net.Needed i := by
  constructor
  · intro isReached
    induction isReached with
    | root isRoot leads =>
      obtain ⟨t, isTensor, isOutput, rfl⟩ := mem_roots.mp isRoot
      obtain ⟨-, op, isOp, writes⟩ := producer_eq_some.mp leads
      exact .output isOutput isTensor isOp writes
    | next _ isInput leads ih =>
      obtain ⟨reader, isReader, reads⟩ := mem_inputsOf.mp isInput
      obtain ⟨isTensor, op, isOp, writes⟩ := producer_eq_some.mp leads
      exact .input ih isReader isTensor reads isOp writes
  · intro isNeeded
    induction isNeeded with
    | output isOutput isTensor isOp writes =>
      exact .root (mem_roots.mpr ⟨_, isTensor, isOutput, rfl⟩)
        (producer_eq_some.mpr ⟨Int.natCast_nonneg _, _, isOp, writes⟩)
    | input _ isReader isTensor reads isOp writes ih =>
      exact .next ih (mem_inputsOf.mpr ⟨_, isReader, reads⟩)
        (producer_eq_some.mpr ⟨isTensor, _, isOp, writes⟩)

theorem exists_reachable (net : NetT) : ∃ reachable, net.reachable = some reachable := by
  refine exists_mark (Finset.range net.oplists.length) (fun t i leads => ?_) ?_
  · obtain ⟨-, op, isOp, -⟩ := producer_eq_some.mp leads
    exact Finset.mem_range.mpr (List.getElem?_eq_some_iff.mp isOp).1
  · rw [edgesLeft, fuel]
    exact Nat.add_le_add_left (Finset.sum_le_sum_of_subset (Finset.filter_subset _ _)) _

theorem mem_kept {reachable : List Nat} (isReachable : net.reachable = some reachable) {op : OpT OpType}
    {i : Nat} :
    (op, i) ∈ net.kept reachable ↔
      net.oplists[i]? = some op ∧ (net.Needed i ∨ op.kind.type ∉ net.kShapeOpWhitelist) := by
  rw [kept, mem_filter, mem_zipIdx_iff_getElem?, deleteOp, ← reached_iff_needed,
    ← mem_mark isReachable]
  simp only [Bool.not_and, decide_not, Bool.not_not, Bool.or_eq_true, decide_eq_true_eq,
    Bool.not_eq_true', decide_eq_false_iff_not]

/-! ## The pass -/

theorem roots_eq_nil_iff : net.roots = [] ↔ ¬net.HasOutput := by
  rw [eq_nil_iff_forall_not_mem]
  constructor
  · rintro isEmpty ⟨t, isTensor, isOutput⟩
    exact isEmpty t (mem_roots.mpr ⟨t, isTensor, isOutput, rfl⟩)
  · intro noOutput t isRoot
    obtain ⟨i, isTensor, isOutput, -⟩ := mem_roots.mp isRoot
    exact noOutput ⟨i, isTensor, isOutput⟩

theorem Preserved.of_closed {ops : List (OpT OpType)} (isPart : ops <+ net.oplists)
    (needed : ∀ i op, net.Needed i → net.oplists[i]? = some op → op ∈ ops)
    (closed : ∀ op ∈ ops, ∀ t ∈ op.inputIndexes, 0 ≤ t → Produced net.oplists t → Produced ops t) :
    net.Preserved ops where
  isPart := isPart
  needed := needed
  closed := closed
  values _ _ _ _ isProduced :=
    ⟨fun holds => holds.mono isPart.subset, fun holds => holds.of_closed net.single isPart closed isProduced⟩

/-- What is left has lost nothing if and only if the operators that go are not read by others. -/
theorem preserved_kept_iff {reachable : List Nat} (isReachable : net.reachable = some reachable) :
    net.Preserved ((net.kept reachable).map Prod.fst) ↔ net.StaysClosed := by
  have mem_ops {op : OpT OpType} : op ∈ (net.kept reachable).map Prod.fst ↔
      ∃ i, net.oplists[i]? = some op ∧ (net.Needed i ∨ op.kind.type ∉ net.kShapeOpWhitelist) := by
    simp only [mem_map, Prod.exists, mem_kept isReachable, exists_and_right, exists_eq_right]
  constructor
  · intro preserved i j op reader isOp notNeeded isListed isReader notNeeded' notListed t reads
      isTensor writes
    obtain ⟨other, isOther, writes'⟩ :=
      preserved.closed reader (mem_ops.mpr ⟨j, isReader, Or.inr notListed⟩) t reads isTensor
        ⟨op, mem_of_getElem? isOp, writes⟩
    obtain ⟨k, isOther, stays⟩ := mem_ops.mp isOther
    obtain rfl := net.single.unique isOp isOther isTensor writes writes'
    obtain rfl := Option.some.inj (isOp.symm.trans isOther)
    exact stays.elim notNeeded fun notListed => notListed isListed
  · intro staysClosed
    refine Preserved.of_closed ?_ (fun i op isNeeded isOp => mem_ops.mpr ⟨i, isOp, Or.inl isNeeded⟩) ?_
    · have isPart := (filter_sublist (p := fun place => !net.deleteOp reachable place.2 place.1)
        (l := net.oplists.zipIdx)).map Prod.fst
      rwa [zipIdx_map_fst] at isPart
    · rintro reader isReader t reads isTensor ⟨op, isOp, writes⟩
      obtain ⟨j, isReader, stays⟩ := mem_ops.mp isReader
      obtain ⟨i, isOp⟩ := mem_iff_getElem?.mp isOp
      refine ⟨op, mem_ops.mpr ⟨i, isOp, ?_⟩, writes⟩
      by_cases isNeeded : net.Needed j
      · exact Or.inl (.input isNeeded isReader isTensor reads isOp writes)
      · by_contra goes
        rw [not_or, not_not] at goes
        exact staysClosed i j op reader isOp goes.1 goes.2 isReader isNeeded
          (stays.resolve_left isNeeded) t reads isTensor writes

/-- The pass keeps a net if and only if no operator that stays unneeded reads of one that goes. -/
theorem onExecute_preserves_iff (net : NetT) :
    (∃ ops, net.onExecute = some ops ∧ net.Preserved ops) ↔ (net.HasOutput → net.StaysClosed) := by
  obtain ⟨reachable, isReachable⟩ := net.exists_reachable
  by_cases hasOutput : net.HasOutput
  · have isExecuted : net.onExecute = some ((net.kept reachable).map Prod.fst) := by
      rw [onExecute, if_neg fun isEmpty => roots_eq_nil_iff.mp isEmpty hasOutput, isReachable]
      rfl
    rw [isExecuted, ← preserved_kept_iff isReachable]
    constructor
    · rintro ⟨ops, isOps, preserved⟩ -
      rwa [Option.some.inj isOps]
    · exact fun preserved => ⟨_, rfl, preserved hasOutput⟩
  · rw [onExecute, if_pos (roots_eq_nil_iff.mpr hasOutput)]
    refine ⟨fun _ isThere => absurd isThere hasOutput, fun _ => ⟨_, rfl, ?_⟩⟩
    exact .of_closed (Sublist.refl _) (fun _ _ _ isOp => mem_of_getElem? isOp)
      fun _ _ _ _ _ isProduced => isProduced

/-- A `Reshape` that no output needs reads a `Shape`. -/
def deadReshape : NetT where
  oplists := [⟨⟨.other 0, 0⟩, [], [0]⟩, ⟨⟨.Shape, 0⟩, [0], [1]⟩, ⟨⟨.other 1, 0⟩, [0, 1], [2]⟩,
    ⟨⟨.other 2, 0⟩, [0], [3]⟩]
  tensorName := ["x", "shape", "y", "z"]
  outputName := ["z"]
  hasSubgraphs := false
  inRange := by decide
  single := by decide

theorem reshape_left_behind :
    ¬∀ net : NetT, ∃ ops, net.onExecute = some ops ∧ net.Preserved ops := by
  intro all
  obtain ⟨ops, isOps, preserved⟩ := all deadReshape
  have isExecuted : deadReshape.onExecute =
      some [⟨⟨.other 0, 0⟩, [], [0]⟩, ⟨⟨.other 1, 0⟩, [0, 1], [2]⟩, ⟨⟨.other 2, 0⟩, [0], [3]⟩] := by
    decide
  rw [isExecuted, Option.some_inj] at isOps
  subst isOps
  have isProduced := preserved.closed ⟨⟨.other 1, 0⟩, [0, 1], [2]⟩ (by decide) 1 (by decide)
    (by decide) ⟨⟨⟨.Shape, 0⟩, [0], [1]⟩, by decide, by decide⟩
  exact absurd isProduced (by unfold Produced; decide)

end NetT

end Mnn.Converter.DeadShapeOps
