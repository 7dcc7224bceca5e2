import Mnn.Converter.OpGraph

/-!
# Unary operators in front of reshapes

`MoveUnaryOpBeforeReshape` swaps a unary operator with the reshape in front of it
until there is nothing to swap.  The tensor between the two gets another value by
that, which matters if it is a declared output, or if it is read elsewhere behind
a negative index.
-/

namespace Mnn.Converter.MoveUnary

open Mnn.Converter.OpGraph
open List

inductive OpType
  | ReLU
  | ReLU6
  | UnaryOp
  | ConvertTensor
  | Reshape
  | Squeeze
  | Unsqueeze
  | ExpandDims
  | Flatten
  | other (type : Nat)
  deriving DecidableEq

abbrev Op := OpT OpType

def isUnaryOp (type : OpType) : Bool :=
  match type with
  | .ReLU | .ReLU6 | .UnaryOp => true
  | _ => false

def isFullReshapeOp (type : OpType) : Bool :=
  match type with
  | .ConvertTensor | .Reshape | .Squeeze | .Unsqueeze | .ExpandDims | .Flatten => true
  | _ => false

/-! ## The pass -/

/-- The loops over the indexes of an operator end at a negative one. -/
def counted (indexes : List Int) : List Int := indexes.takeWhile fun index => 0 ≤ index

def tensorUseCount (ops : List Op) (t : Int) : Nat :=
  (ops.map fun op => (counted op.inputIndexes).count t).sum

/-- The last operator that writes the tensor. -/
def tensorFromOp (ops : List Op) (t : Int) : Option Nat :=
  (range ops.length).reverse.find? fun i =>
    (ops[i]?.map fun op => decide (t ∈ counted op.outputIndexes)).getD false

/-- The two operators change their places, and their first input and output. -/
def swap (ops : List Op) (i j : Nat) (op inputOp : Op) : List Op :=
  (ops.set j { op with
      inputIndexes := op.inputIndexes.set 0 (inputOp.inputIndexes.headD 0)
      outputIndexes := op.outputIndexes.set 0 (inputOp.outputIndexes.headD 0) }).set i
    { inputOp with
      inputIndexes := inputOp.inputIndexes.set 0 (op.inputIndexes.headD 0)
      outputIndexes := inputOp.outputIndexes.set 0 (op.outputIndexes.headD 0) }

/-- The places of a unary operator and of the reshape that it is swapped with. -/
def findSwap (ops : List Op) (i : Nat) : Option (Nat × Op × Op) := do
  let op ← ops[i]?
  if (op.inputIndexes ++ op.outputIndexes).any (· < 0) || !isUnaryOp op.kind.type then none else
  let inputIndex ← op.inputIndexes.head?
  let j ← tensorFromOp ops inputIndex
  let inputOp ← ops[j]?
  if !isFullReshapeOp inputOp.kind.type then none else
  let output ← inputOp.outputIndexes.head?
  if 1 < tensorUseCount ops output then none else
  return (j, op, inputOp)

/-- The first swap in the order of the operators. -/
def firstSwap (ops : List Op) : Option (Nat × Nat × Op × Op) :=
  (range ops.length).findSome? fun i => (findSwap ops i).map fun found => (i, found)

/-- One turn of the outer loop. -/
def pass (ops : List Op) : Option (List Op) :=
  (firstSwap ops).map fun (i, j, op, inputOp) => swap ops i j op inputOp

def passes : Nat → List Op → Option (List Op)
  | 0, _ => none
  | fuel + 1, ops =>
    match pass ops with
    | none => some ops
    | some swapped => passes fuel swapped

def unaryPlace (ops : List Op) (i : Nat) : Nat :=
  if (ops[i]?.map fun op => isUnaryOp op.kind.type) = some true then i else 0

/-- Each swap brings a unary operator to a smaller place. -/
def unaryPlaces (ops : List Op) : Nat := ∑ i ∈ Finset.range ops.length, unaryPlace ops i

/-- `MoveUnaryOpBeforeReshape::onExecute`, up to the operators of the net. -/
def onExecute (ops : List Op) : Option (List Op) := passes (unaryPlaces ops + 1) ops

/-! ## Nets -/

/-- A shape, and the elements in their order. -/
abbrev Tensor (R : Type) := List Nat × List R

/-- Unary operators change the elements, and reshapes the shape. -/
structure Semantics (R : Type) where
  elementwise : Kind OpType → R → R
  reshape : Kind OpType → List Nat → List (Option (Tensor R)) → List Nat
  compute : Kind OpType → List (Option (Tensor R)) → List (Tensor R)

def Semantics.run {R : Type} (semantics : Semantics R) (kind : Kind OpType)
    (args : List (Option (Tensor R))) : List (Tensor R) :=
  if isUnaryOp kind.type then
    match args with
    | some value :: _ => [(value.1, value.2.map (semantics.elementwise kind))]
    | _ => []
  else if isFullReshapeOp kind.type then
    match args with
    | some value :: others => [(semantics.reshape kind value.1 others, value.2)]
    | _ => []
  else
    semantics.compute kind args

/-- Each tensor has one producer, in front of its readers. -/
structure WellFormed (ops : List Op) : Prop where
  unary : ∀ op ∈ ops, isUnaryOp op.kind.type = true →
    ∃ t y, op.inputIndexes = [t] ∧ op.outputIndexes = [y]
  reshape : ∀ op ∈ ops, isFullReshapeOp op.kind.type = true →
    ∃ x others t, op.inputIndexes = x :: others ∧ op.outputIndexes = [t]
  single : SingleProducers ops
  ordered : ∀ (i j : Nat) (writer reader : Op) (t : Int), ops[i]? = some writer →
    ops[j]? = some reader → 0 ≤ t → t ∈ writer.outputIndexes → t ∈ reader.inputIndexes → i < j

/-- The tensor of the next swap is no declared output, and has no other reader. -/
def StepFree (declared : List Int) (ops : List Op) : Prop :=
  ∀ i j op inputOp, firstSwap ops = some (i, j, op, inputOp) → ∀ t ∈ op.inputIndexes,
    t ∉ declared ∧ ∀ (k : Nat) (reader : Op), ops[k]? = some reader → t ∈ reader.inputIndexes → k = i

/-! ## One swap -/

/-- What is known of two operators that are swapped. -/
structure Swapped (ops : List Op) (i j : Nat) (unary reshape : Kind OpType) (x : Int)
    (others : List Int) (t y : Int) : Prop where
  isUnary : isUnaryOp unary.type = true
  isReshape : isFullReshapeOp reshape.type = true
  atUnary : ops[i]? = some ⟨unary, [t], [y]⟩
  atReshape : ops[j]? = some ⟨reshape, x :: others, [t]⟩
  isTensor : 0 ≤ t
  less : j < i

variable {ops : List Op} {i j k : Nat} {unary reshape : Kind OpType} {x t y : Int}
  {others : List Int} {op inputOp : Op}

/-- The operators after the swap. -/
def Swapped.after (_ : Swapped ops i j unary reshape x others t y) : List Op :=
  (ops.set j ⟨unary, [x], [t]⟩).set i ⟨reshape, t :: others, [y]⟩

theorem not_isFullReshapeOp {type : OpType} (isUnary : isUnaryOp type = true) :
    isFullReshapeOp type = false := by
  cases type <;> first | rfl | nomatch isUnary

theorem of_tensorFromOp (isFrom : tensorFromOp ops t = some j) :
    ∃ op, ops[j]? = some op ∧ t ∈ op.outputIndexes := by
  have isWriter := find?_some isFrom
  cases isOp : ops[j]? with
  | none => simp [isOp] at isWriter
  | some op =>
    simp only [isOp, Option.map_some, Option.getD_some, decide_eq_true_eq] at isWriter
    exact ⟨op, rfl, (takeWhile_sublist _).subset isWriter⟩

theorem swapped_of_findSwap (wellFormed : WellFormed ops)
    (isFound : findSwap ops i = some (j, op, inputOp)) :
    ∃ x others t y, ∃ isSwapped : Swapped ops i j op.kind inputOp.kind x others t y,
      op.inputIndexes = [t] ∧ swap ops i j op inputOp = isSwapped.after := by
  simp only [findSwap, bind, Option.bind_eq_some_iff] at isFound
  obtain ⟨op', isOp, isFound⟩ := isFound
  split at isFound
  · cases isFound
  rename_i isValid
  simp only [Bool.or_eq_true, any_eq_true, decide_eq_true_eq, Bool.not_eq_true', not_or,
    not_exists, not_and, Bool.not_eq_false, mem_append] at isValid
  obtain ⟨input, isInput, isFound⟩ := Option.bind_eq_some_iff.mp isFound
  obtain ⟨j', isFrom, isFound⟩ := Option.bind_eq_some_iff.mp isFound
  obtain ⟨inputOp', isInputOp, isFound⟩ := Option.bind_eq_some_iff.mp isFound
  split at isFound
  · cases isFound
  rename_i isReshape
  obtain ⟨output, isOutput, isFound⟩ := Option.bind_eq_some_iff.mp isFound
  split at isFound
  · cases isFound
  obtain ⟨⟩ := isFound
  have isReshape : isFullReshapeOp inputOp.kind.type = true := by simpa using isReshape
  obtain ⟨t, y, inputs, outputs⟩ := wellFormed.unary op (mem_of_getElem? isOp) isValid.2
  obtain ⟨x, others, u, inputs', outputs'⟩ :=
    wellFormed.reshape inputOp (mem_of_getElem? isInputOp) isReshape
  obtain rfl : t = input := by simpa [inputs] using isInput
  obtain ⟨writer, isWriter, writes⟩ := of_tensorFromOp isFrom
  obtain rfl := Option.some.inj (isInputOp.symm.trans isWriter)
  obtain rfl : t = u := by simpa [outputs'] using writes
  have isTensor : 0 ≤ t := not_lt.mp (isValid.1 t (.inl (by simp [inputs])))
  have less := wellFormed.ordered j i inputOp op t isInputOp isOp isTensor writes (by simp [inputs])
  obtain ⟨kind, inputIndexes, outputIndexes⟩ := op
  obtain ⟨kind', inputIndexes', outputIndexes'⟩ := inputOp
  subst inputs outputs inputs' outputs'
  exact ⟨x, others, t, y, ⟨isValid.2, isReshape, isOp, isInputOp, isTensor, less⟩, rfl, rfl⟩

variable {R : Type} {semantics : Semantics R}

theorem run_unary (isUnary : isUnaryOp unary.type = true) (values : Int → Tensor R) (t : Int) :
    semantics.run unary (argsOf [t] values) = if 0 ≤ t then
      [((values t).1, (values t).2.map (semantics.elementwise unary))] else [] := by
  by_cases isTensor : 0 ≤ t <;> simp [Semantics.run, isUnary, argsOf, isTensor]

theorem run_reshape (isReshape : isFullReshapeOp reshape.type = true) (values : Int → Tensor R)
    (x : Int) (others : List Int) :
    semantics.run reshape (argsOf (x :: others) values) = if 0 ≤ x then
      [(semantics.reshape reshape (values x).1 (argsOf others values), (values x).2)] else [] := by
  have notUnary : isUnaryOp reshape.type = false := by
    by_contra isUnary
    exact absurd isReshape (by simp [not_isFullReshapeOp (eq_true_of_ne_false isUnary)])
  by_cases isTensor : 0 ≤ x <;> simp [Semantics.run, notUnary, isReshape, argsOf, isTensor]

theorem argsOf_congr {values values' : Int → Tensor R}
    (same : ∀ input ∈ others, values input = values' input) :
    argsOf others values = argsOf others values' := by
  refine map_congr_left fun input isInput => ?_
  rw [same input isInput]

variable {value : Tensor R}

section Swap

variable (isSwapped : Swapped ops i j unary reshape x others t y)

include isSwapped

theorem Swapped.place : i < ops.length := (List.getElem?_eq_some_iff.mp isSwapped.atUnary).1

theorem Swapped.place' : j < ops.length := (List.getElem?_eq_some_iff.mp isSwapped.atReshape).1

theorem Swapped.at_unary :
    isSwapped.after[j]? = some ⟨unary, [x], [t]⟩ := by
  have distinct := isSwapped.less.ne'
  simp [Swapped.after, distinct, isSwapped.place']

theorem Swapped.at_reshape :
    isSwapped.after[i]? = some ⟨reshape, t :: others, [y]⟩ := by
  simp [Swapped.after, isSwapped.place]

theorem Swapped.elsewhere (notUnary : k ≠ i) (notReshape : k ≠ j) :
    isSwapped.after[k]? = ops[k]? := by
  simp [Swapped.after, notUnary.symm, notReshape.symm]

/-- Each place writes what it wrote before. -/
theorem Swapped.outputs (k : Nat) :
    (isSwapped.after[k]?).map (·.outputIndexes) =
      (ops[k]?).map (·.outputIndexes) := by
  by_cases atUnary : k = i
  · subst atUnary
    simp [isSwapped.at_reshape, isSwapped.atUnary]
  by_cases atReshape : k = j
  · subst atReshape
    simp [isSwapped.at_unary, isSwapped.atReshape]
  rw [isSwapped.elsewhere atUnary atReshape]

theorem Swapped.writer {writer : Op} (isWriter : isSwapped.after[k]? = some writer) :
    ∃ writer', ops[k]? = some writer' ∧ writer'.outputIndexes = writer.outputIndexes := by
  simpa [isWriter, eq_comm] using isSwapped.outputs k

theorem Swapped.singleProducers (single : SingleProducers ops) :
    SingleProducers isSwapped.after := by
  have same : isSwapped.after.map (·.outputIndexes) =
      ops.map (·.outputIndexes) := by
    apply ext_getElem?
    intro k
    rw [getElem?_map, getElem?_map, isSwapped.outputs k]
  unfold SingleProducers at single ⊢
  rw [← pairwise_map (f := fun op : Op => op.outputIndexes)
    (R := fun written written' => ∀ t ∈ written, 0 ≤ t → t ∉ written')] at single ⊢
  rwa [same]

theorem Swapped.not_reads (wellFormed : WellFormed ops) : t ∉ x :: others := by
  intro reads
  exact lt_irrefl _ (wellFormed.ordered j j _ _ t isSwapped.atReshape isSwapped.atReshape
    isSwapped.isTensor (by simp) reads)

theorem Swapped.ordered (wellFormed : WellFormed ops) {a b : Nat} {writer reader : Op} {u : Int}
    (isWriter : isSwapped.after[a]? = some writer)
    (isReader : isSwapped.after[b]? = some reader) (isTensor : 0 ≤ u)
    (writes : u ∈ writer.outputIndexes) (reads : u ∈ reader.inputIndexes) : a < b := by
  obtain ⟨writer', isWriter', same⟩ := isSwapped.writer isWriter
  rw [← same] at writes
  by_cases atUnary : b = i
  · subst atUnary
    obtain rfl := Option.some.inj (isSwapped.at_reshape.symm.trans isReader)
    rcases List.mem_cons.mp reads with rfl | reads
    · obtain rfl := wellFormed.single.unique isWriter' isSwapped.atReshape isTensor writes (by simp)
      exact isSwapped.less
    · exact (wellFormed.ordered a j _ _ u isWriter' isSwapped.atReshape isTensor writes
        (mem_cons_of_mem _ reads)).trans isSwapped.less
  by_cases atReshape : b = j
  · subst atReshape
    obtain rfl := Option.some.inj (isSwapped.at_unary.symm.trans isReader)
    refine wellFormed.ordered a b _ _ u isWriter' isSwapped.atReshape isTensor writes ?_
    simp [List.mem_singleton.mp reads]
  rw [isSwapped.elsewhere atUnary atReshape] at isReader
  exact wellFormed.ordered a b _ _ u isWriter' isReader isTensor writes reads

/-- Producers stay in front of their readers. -/
theorem Swapped.wellFormed (wellFormed : WellFormed ops) :
    WellFormed isSwapped.after := by
  have members : ∀ op ∈ isSwapped.after,
      op ∈ ops ∨ op = ⟨unary, [x], [t]⟩ ∨ op = ⟨reshape, t :: others, [y]⟩ := by
    intro op isOp
    rcases mem_or_eq_of_mem_set isOp with isOp | rfl
    · rcases mem_or_eq_of_mem_set isOp with isOp | rfl
      · exact .inl isOp
      · exact .inr (.inl rfl)
    · exact .inr (.inr rfl)
  constructor
  case unary =>
    intro op isOp isUnary
    rcases members op isOp with isOp | rfl | rfl
    · exact wellFormed.unary op isOp isUnary
    · exact ⟨x, t, rfl, rfl⟩
    · exact absurd isSwapped.isReshape (by simp [not_isFullReshapeOp isUnary])
  case reshape =>
    intro op isOp isReshape
    rcases members op isOp with isOp | rfl | rfl
    · exact wellFormed.reshape op isOp isReshape
    · exact absurd isReshape (by simp [not_isFullReshapeOp isSwapped.isUnary])
    · exact ⟨t, others, y, rfl, rfl⟩
  case single => exact isSwapped.singleProducers wellFormed.single
  case ordered =>
    intro a b writer reader u isWriter isReader isTensor writes reads
    exact isSwapped.ordered wellFormed isWriter isReader isTensor writes reads

theorem Swapped.unaryPlaces_lt :
    unaryPlaces isSwapped.after < unaryPlaces ops := by
  have isPlace := Finset.mem_range.mpr isSwapped.place
  have isPlace' : j ∈ (Finset.range ops.length).erase i :=
    Finset.mem_erase.mpr ⟨isSwapped.less.ne, Finset.mem_range.mpr isSwapped.place'⟩
  have sameLength : isSwapped.after.length = ops.length := by
    simp [Swapped.after]
  have notUnary : isUnaryOp reshape.type = false := by
    by_contra isUnary
    exact absurd isSwapped.isReshape (by simp [not_isFullReshapeOp (eq_true_of_ne_false isUnary)])
  have before : unaryPlace ops i = i ∧ unaryPlace ops j = 0 := by
    simp [unaryPlace, isSwapped.atUnary, isSwapped.atReshape, isSwapped.isUnary, notUnary]
  have after : unaryPlace isSwapped.after i = 0 ∧
      unaryPlace isSwapped.after j = j := by
    simp [unaryPlace, isSwapped.at_unary, isSwapped.at_reshape, isSwapped.isUnary, notUnary]
  have rest : ∑ k ∈ ((Finset.range ops.length).erase i).erase j,
      unaryPlace isSwapped.after k =
        ∑ k ∈ ((Finset.range ops.length).erase i).erase j, unaryPlace ops k := by
    refine Finset.sum_congr rfl fun k isRest => ?_
    have isRest := Finset.mem_erase.mp isRest
    rw [unaryPlace, isSwapped.elsewhere (Finset.mem_erase.mp isRest.2).1 isRest.1, unaryPlace]
  have less := isSwapped.less
  unfold unaryPlaces
  rw [sameLength, ← Finset.add_sum_erase _ _ isPlace, ← Finset.add_sum_erase _ _ isPlace',
    ← Finset.add_sum_erase _ (unaryPlace ops) isPlace,
    ← Finset.add_sum_erase _ (unaryPlace ops) isPlace', rest]
  omega

/-- What the reshape makes of what is held in front of it after the swap. -/
def Between (semantics : Semantics R) (ops : List Op) (reshape : Kind OpType) (x : Int)
    (others : List Int) (value : Tensor R) : Prop :=
  ∃ values : Int → Tensor R, 0 ≤ x ∧
    (∀ input ∈ x :: others, 0 ≤ input → Holds semantics.run ops input (values input)) ∧
    value = (semantics.reshape reshape (values x).1 (argsOf others values), (values x).2)

/-- The tensor between the two is computed from what is in front of it. -/
theorem Swapped.holds_output (wellFormed : WellFormed ops)
    (between : Between semantics isSwapped.after reshape x others value) (isTensor : 0 ≤ y) :
    Holds semantics.run isSwapped.after y (value.1, value.2.map (semantics.elementwise unary)) := by
  obtain ⟨values, isTensor', areValues, rfl⟩ := between
  have isBetween : Holds semantics.run isSwapped.after t
      ((values x).1, (values x).2.map (semantics.elementwise unary)) := by
    refine .of_op (k := 0) values (mem_of_getElem? isSwapped.at_unary) (fun input reads isInput => ?_)
      rfl isSwapped.isTensor (by simp [run_unary isSwapped.isUnary, isTensor'])
    obtain rfl := List.mem_singleton.mp reads
    exact areValues input (by simp) isInput
  have notRead : ∀ input ∈ others, input ≠ t := fun input reads same =>
    isSwapped.not_reads wellFormed (same ▸ mem_cons_of_mem _ reads)
  have same : argsOf others (Function.update values t
      ((values x).1, (values x).2.map (semantics.elementwise unary))) = argsOf others values :=
    argsOf_congr fun input reads => Function.update_of_ne (notRead input reads) _ _
  refine .of_op (k := 0) (Function.update values t
    ((values x).1, (values x).2.map (semantics.elementwise unary)))
    (mem_of_getElem? isSwapped.at_reshape) (fun input reads isInput => ?_) rfl isTensor ?_
  · rcases List.mem_cons.mp reads with rfl | reads
    · rwa [Function.update_self]
    · rw [Function.update_of_ne (notRead input reads)]
      exact areValues input (mem_cons_of_mem _ reads) isInput
  · simp [run_reshape isSwapped.isReshape, isSwapped.isTensor, same]

/-- What the other tensors hold is held after the swap too. -/
theorem Swapped.holds (wellFormed : WellFormed ops)
    (onlyReader : ∀ (k : Nat) (reader : Op), ops[k]? = some reader → t ∈ reader.inputIndexes → k = i)
    {u : Int} (holds : Holds semantics.run ops u value) :
    (u ≠ t → Holds semantics.run isSwapped.after u value) ∧
      (u = t →
        Between semantics isSwapped.after reshape x others value) := by
  induction holds with
  | @of_op op k u value values isOp areValues isOutput isTensor isValue ih =>
  obtain ⟨a, isPlace⟩ := mem_iff_getElem?.mp isOp
  constructor
  · intro distinct
    by_cases atUnary : a = i
    · subst atUnary
      obtain rfl := Option.some.inj (isSwapped.atUnary.symm.trans isPlace)
      obtain ⟨rfl, rfl⟩ : k = 0 ∧ y = u := by simpa [getElem?_singleton] using isOutput
      obtain rfl : _ = value := by
        simpa [run_unary isSwapped.isUnary, isSwapped.isTensor] using isValue
      exact isSwapped.holds_output wellFormed ((ih t (by simp) isSwapped.isTensor).2 rfl) isTensor
    · have notReshape : a ≠ j := by
        rintro rfl
        obtain rfl := Option.some.inj (isSwapped.atReshape.symm.trans isPlace)
        exact distinct (List.mem_singleton.mp (mem_of_getElem? isOutput))
      rw [← isSwapped.elsewhere atUnary notReshape] at isPlace
      refine .of_op values (mem_of_getElem? isPlace) (fun input reads isInput => ?_) isOutput
        isTensor isValue
      refine (ih input reads isInput).1 fun same => atUnary ?_
      rw [isSwapped.elsewhere atUnary notReshape] at isPlace
      exact onlyReader a op isPlace (same ▸ reads)
  · rintro rfl
    obtain rfl := wellFormed.single.unique isPlace isSwapped.atReshape isTensor
      (mem_of_getElem? isOutput) (by simp)
    obtain rfl := Option.some.inj (isSwapped.atReshape.symm.trans isPlace)
    obtain rfl : k = 0 := by
      by_contra notFirst
      simp [notFirst] at isOutput
    rw [run_reshape isSwapped.isReshape] at isValue
    split at isValue
    case isTrue isInput =>
      refine ⟨values, isInput, fun input reads isInput => (ih input reads isInput).1 ?_, ?_⟩
      · rintro rfl
        exact isSwapped.not_reads wellFormed reads
      · simpa [eq_comm] using isValue
    case isFalse => cases isValue

end Swap

/-! ## The run -/

theorem of_pass (wellFormed : WellFormed ops) {ops' : List Op} (isPass : pass ops = some ops') :
    ∃ i j op inputOp x others t y, ∃ isSwapped : Swapped ops i j op.kind inputOp.kind x others t y,
      firstSwap ops = some (i, j, op, inputOp) ∧ op.inputIndexes = [t] ∧ ops' = isSwapped.after := by
  obtain ⟨⟨i, j, op, inputOp⟩, isFirst, rfl⟩ := Option.map_eq_some_iff.mp isPass
  obtain ⟨i', _, isFound⟩ := exists_of_findSome?_eq_some isFirst
  obtain ⟨found, isFound, same⟩ := Option.map_eq_some_iff.mp isFound
  obtain ⟨rfl, rfl⟩ := Prod.mk.inj same
  obtain ⟨x, others, t, y, isSwapped, inputs, same⟩ := swapped_of_findSwap wellFormed isFound
  exact ⟨i', j, op, inputOp, x, others, t, y, isSwapped, isFirst, inputs, same⟩

theorem pass_wellFormed {ops' : List Op} (wellFormed : WellFormed ops)
    (isPass : pass ops = some ops') : WellFormed ops' ∧ unaryPlaces ops' < unaryPlaces ops := by
  obtain ⟨i, j, op, inputOp, x, others, t, y, isSwapped, _, _, rfl⟩ := of_pass wellFormed isPass
  exact ⟨isSwapped.wellFormed wellFormed, isSwapped.unaryPlaces_lt⟩

variable {declared : List Int}

theorem pass_holds {ops' : List Op} (wellFormed : WellFormed ops) (stepFree : StepFree declared ops)
    (isPass : pass ops = some ops') (isDeclared : t ∈ declared)
    (holds : Holds semantics.run ops t value) : Holds semantics.run ops' t value := by
  obtain ⟨i, j, op, inputOp, x, others, between, y, isSwapped, isFirst, inputs, rfl⟩ :=
    of_pass wellFormed isPass
  obtain ⟨notDeclared, onlyReader⟩ := stepFree i j op inputOp isFirst between (by simp [inputs])
  refine (isSwapped.holds wellFormed onlyReader holds).1 ?_
  rintro rfl
  exact notDeclared isDeclared

/-- The loop ends, with what each pass keeps. -/
theorem passes_keeps {good : List Op → Prop} (keeps : ∀ ops ops', good ops → pass ops = some ops' →
    good ops' ∧ unaryPlaces ops' < unaryPlaces ops) (fuel : Nat) (enough : unaryPlaces ops < fuel)
    (isGood : good ops) : ∃ result, passes fuel ops = some result ∧ good result := by
  induction fuel generalizing ops with
  | zero => cases enough
  | succ fuel ih =>
    unfold passes
    cases isPass : pass ops with
    | none => exact ⟨ops, rfl, isGood⟩
    | some ops' =>
      obtain ⟨isGood', less⟩ := keeps ops ops' isGood isPass
      exact ih (by omega) isGood'

theorem pass_of_passes {result : List Op} (fuel : Nat) (ends : passes fuel ops = some result) :
    pass result = none := by
  induction fuel generalizing ops with
  | zero => cases ends
  | succ fuel ih =>
    unfold passes at ends
    cases isPass : pass ops with
    | none =>
      rw [isPass] at ends
      exact Option.some.inj ends ▸ isPass
    | some ops' =>
      rw [isPass] at ends
      exact ih ends

/-- It always ends, with producers in front of their readers, and is finished then. -/
theorem onExecute_settles (wellFormed : WellFormed ops) : ∃ result, onExecute ops = some result ∧
    WellFormed result ∧ onExecute result = some result := by
  obtain ⟨result, ends, wellFormed'⟩ :=
    passes_keeps (fun _ _ => pass_wellFormed) _ (Nat.lt_succ_self _) wellFormed
  refine ⟨result, ends, wellFormed', ?_⟩
  rw [onExecute, passes, pass_of_passes _ ends]

/-- The declared outputs keep their shapes and values, if each pass is free to swap. -/
theorem onExecute_preserves (ops : List Op) (declared : List Int) (wellFormed : WellFormed ops)
    (stepFree : ∀ reached, Relation.ReflTransGen (fun before after => pass before = some after) ops
      reached → StepFree declared reached) :
    ∃ result, onExecute ops = some result ∧ WellFormed result ∧
      ∀ (R : Type) (semantics : Semantics R), ∀ t ∈ declared, ∀ value,
        Holds semantics.run ops t value → Holds semantics.run result t value := by
  obtain ⟨result, isResult, _, wellFormed', preserves⟩ := @passes_keeps ops
    (fun reached => Relation.ReflTransGen (fun before after => pass before = some after) ops
      reached ∧ WellFormed reached ∧ ∀ (R : Type) (semantics : Semantics R), ∀ t ∈ declared,
        ∀ value, Holds semantics.run ops t value → Holds semantics.run reached t value)
    (fun reached next ⟨isReached, wellFormed, preserves⟩ isPass => by
      have kept := pass_wellFormed wellFormed isPass
      refine ⟨⟨isReached.tail isPass, kept.1, fun R semantics t isDeclared value holds => ?_⟩, kept.2⟩
      exact pass_holds wellFormed (stepFree reached isReached) isPass isDeclared
        (preserves R semantics t isDeclared value holds))
    _ (Nat.lt_succ_self _) ⟨.refl, wellFormed, fun _ _ _ _ _ holds => holds⟩
  exact ⟨result, isResult, wellFormed', preserves⟩

/-- An input, a reshape and a unary operator. -/
def reshaped : List Op :=
  [⟨⟨.other 0, 0⟩, [], [0]⟩, ⟨⟨.Reshape, 0⟩, [0], [1]⟩, ⟨⟨.UnaryOp, 0⟩, [1], [2]⟩]

theorem reshaped_wellFormed : WellFormed reshaped where
  unary := by simp [reshaped, isUnaryOp]
  reshape := by simp [reshaped, isFullReshapeOp]
  single := by decide
  ordered := by
    intro i j writer reader t isWriter isReader isTensor writes reads
    have isPlace : i < 3 := (List.getElem?_eq_some_iff.mp isWriter).1
    have isPlace' : j < 3 := (List.getElem?_eq_some_iff.mp isReader).1
    interval_cases i <;> interval_cases j <;> obtain rfl := Option.some.inj isWriter <;>
      obtain rfl := Option.some.inj isReader <;> simp_all

theorem onExecute_settles_reshaped : ∃ result, onExecute reshaped = some result ∧
    WellFormed result ∧ onExecute result = some result :=
  onExecute_settles reshaped_wellFormed

theorem onExecute_preserves_reshaped : ∃ result, onExecute reshaped = some result ∧
    WellFormed result ∧ ∀ (R : Type) (semantics : Semantics R), ∀ t ∈ ([2] : List Int), ∀ value,
      Holds semantics.run reshaped t value → Holds semantics.run result t value := by
  refine onExecute_preserves reshaped [2] reshaped_wellFormed fun reached isReached => ?_
  have cases : reached = reshaped ∨ pass reached = none := by
    induction isReached with
    | refl => exact .inl rfl
    | tail _ isPass ih =>
      rcases ih with rfl | ended
      · obtain rfl := Option.some.inj isPass
        exact .inr (by decide)
      · exact absurd isPass (by simp [ended])
  intro i j op inputOp isFirst t reads
  rcases cases with rfl | ended
  · obtain ⟨rfl, rfl, rfl, rfl⟩ : 2 = i ∧ 1 = j ∧ _ = op ∧ _ = inputOp := by
      simpa using show some (2, 1, (⟨⟨.UnaryOp, 0⟩, [1], [2]⟩ : Op), _) = _ from isFirst
    obtain rfl := List.mem_singleton.mp reads
    refine ⟨by decide, fun k reader isReader reads' => ?_⟩
    have isPlace : k < 3 := (List.getElem?_eq_some_iff.mp isReader).1
    interval_cases k <;> obtain rfl := Option.some.inj isReader <;> simp_all
  · simp [pass, isFirst] at ended

/-- An observed tensor in front of the unary operator holds what is behind it. -/
theorem not_onExecute_preserves : ¬ ∀ (ops : List Op) (declared : List Int), WellFormed ops →
    ∃ result, onExecute ops = some result ∧ WellFormed result ∧
      ∀ (R : Type) (semantics : Semantics R), ∀ t ∈ declared, ∀ value,
        Holds semantics.run ops t value → Holds semantics.run result t value := by
  intro preserves
  obtain ⟨result, isResult, _, preserves⟩ := preserves reshaped [1] reshaped_wellFormed
  obtain rfl : [⟨⟨.other 0, 0⟩, [], [0]⟩, ⟨⟨.UnaryOp, 0⟩, [0], [1]⟩, ⟨⟨.Reshape, 0⟩, [1], [2]⟩] = result :=
    Option.some.inj isResult
  let increment : Semantics Nat :=
    ⟨fun _ => Nat.succ, fun _ shape _ => shape, fun _ _ => [([1], [0])]⟩
  have isInput : Holds increment.run reshaped 0 ([1], [0]) :=
    .of_op (k := 0) (fun _ => ([1], [0])) (.head _) (by simp) rfl le_rfl rfl
  have isReshaped : Holds increment.run reshaped 1 ([1], [0]) :=
    .of_op (k := 0) (fun _ => ([1], [0])) (.tail _ (.head _))
      (fun input reads _ => List.mem_singleton.mp reads ▸ isInput) rfl (by decide) rfl
  cases preserves Nat increment 1 (by simp) _ isReshaped with
  | @of_op op k _ _ values isOp _ isOutput _ isValue =>
    obtain rfl | rfl | rfl : op = ⟨⟨.other 0, 0⟩, [], [0]⟩ ∨ op = ⟨⟨.UnaryOp, 0⟩, [0], [1]⟩ ∨
      op = ⟨⟨.Reshape, 0⟩, [1], [2]⟩ := by simpa [reshaped] using isOp
    · exact absurd (List.mem_singleton.mp (mem_of_getElem? isOutput)) (by decide)
    · have written := mem_of_getElem? isValue
      rw [run_unary rfl] at written
      simp [increment, Prod.ext_iff, eq_comm, map_eq_cons_iff] at written
    · exact absurd (List.mem_singleton.mp (mem_of_getElem? isOutput)) (by decide)

end Mnn.Converter.MoveUnary
