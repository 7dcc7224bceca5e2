import Mathlib

/-!
# Operators over tensors

A net of the converter is a list of operators, which name the tensors that they
read and write.  What tensors hold is said without an order of the operators, so
that passes which move or remove some can be compared.
-/

namespace Mnn.Converter.OpGraph

open List

/-- The type of an operator, and its parameters by a number. -/
structure Kind (OpType : Type) where
  type : OpType
  main : Nat
  deriving DecidableEq

/-- `OpT`, of a kind that decides what is computed; a negative index is no tensor. -/
structure OpT (OpType : Type) where
  kind : Kind OpType
  inputIndexes : List Int
  outputIndexes : List Int
  deriving DecidableEq

variable {OpType Value : Type}

/-- What an operator is given. -/
def argsOf (inputIndexes : List Int) (values : Int → Value) : List (Option Value) :=
  inputIndexes.map fun input => if 0 ≤ input then some (values input) else none

/-- A tensor holds what an operator that writes it computes. -/
inductive Holds (semantics : Kind OpType → List (Option Value) → List Value) (ops : List (OpT OpType)) :
    Int → Value → Prop
  | of_op {op : OpT OpType} {k : Nat} {t : Int} {value : Value} (values : Int → Value) : op ∈ ops →
      (∀ input ∈ op.inputIndexes, 0 ≤ input → Holds semantics ops input (values input)) →
      op.outputIndexes[k]? = some t → 0 ≤ t →
      (semantics op.kind (argsOf op.inputIndexes values))[k]? = some value →
      Holds semantics ops t value

def Produced (ops : List (OpT OpType)) (t : Int) : Prop := ∃ op ∈ ops, t ∈ op.outputIndexes

/-- No tensor is written by two operators. -/
def SingleProducers (ops : List (OpT OpType)) : Prop :=
  ops.Pairwise fun op other => ∀ t ∈ op.outputIndexes, 0 ≤ t → t ∉ other.outputIndexes

instance (ops : List (OpT OpType)) : Decidable (SingleProducers ops) := by
  unfold SingleProducers
  infer_instance

variable {ops : List (OpT OpType)} {t : Int}

theorem SingleProducers.unique (single : SingleProducers ops) {i j : Nat} {op other : OpT OpType}
    (isOp : ops[i]? = some op) (isOther : ops[j]? = some other) (isTensor : 0 ≤ t)
    (writes : t ∈ op.outputIndexes) (writes' : t ∈ other.outputIndexes) : i = j := by
  obtain ⟨isPlace, rfl⟩ := List.getElem?_eq_some_iff.mp isOp
  obtain ⟨isPlace', rfl⟩ := List.getElem?_eq_some_iff.mp isOther
  have single := pairwise_iff_getElem.mp single
  rcases Nat.lt_trichotomy i j with less | same | less
  · exact absurd writes' (single i j isPlace isPlace' less t writes isTensor)
  · exact same
  · exact absurd writes (single j i isPlace' isPlace less t writes' isTensor)

variable {semantics : Kind OpType → List (Option Value) → List Value} {value : Value}

theorem Holds.produced (holds : Holds semantics ops t value) : Produced ops t := by
  cases holds with
  | of_op values isOp _ isOutput _ _ => exact ⟨_, isOp, mem_of_getElem? isOutput⟩

theorem Holds.mono {others : List (OpT OpType)} (holds : Holds semantics ops t value)
    (subset : ops ⊆ others) : Holds semantics others t value := by
  induction holds with
  | of_op values isOp _ isOutput isTensor isValue ih =>
    exact .of_op values (subset isOp) ih isOutput isTensor isValue

/-- A part of the operators computes the same if it has the producers of what it reads. -/
theorem Holds.of_closed {others : List (OpT OpType)} (holds : Holds semantics others t value)
    (single : SingleProducers others) (isPart : ops <+ others)
    (closed : ∀ op ∈ ops, ∀ t ∈ op.inputIndexes, 0 ≤ t → Produced others t → Produced ops t)
    (isProduced : Produced ops t) : Holds semantics ops t value := by
  induction holds with
  | @of_op op k t value values isOp areValues isOutput isTensor isValue ih =>
    obtain ⟨other, isOther, isOutput'⟩ := isProduced
    obtain ⟨i, isOp⟩ := mem_iff_getElem?.mp isOp
    obtain ⟨j, isSame⟩ := mem_iff_getElem?.mp (isPart.subset isOther)
    obtain rfl := single.unique isOp isSame isTensor (mem_of_getElem? isOutput) isOutput'
    obtain rfl := Option.some.inj (isOp.symm.trans isSame)
    refine .of_op values isOther (fun input reads isTensor' => ?_) isOutput isTensor isValue
    exact ih input reads isTensor'
      (closed op isOther input reads isTensor' (areValues input reads isTensor').produced)

end Mnn.Converter.OpGraph
