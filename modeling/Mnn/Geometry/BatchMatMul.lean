import Mnn.Core.Macro
import Mnn.Foundation.GroupedSums
import Mnn.Foundation.LoopNests

/-!
# Batched products

`GeometryBatchMatMul` lowers a product of batches of matrices to a loop over the matrices
of the output.  The operands advance by a step for each turn, or to where a tensor of
offsets says.  Operands have at least two axes here, and numbers are exact.
-/

variable {n j k iter : Nat} {as bs cs shape : List Nat}

namespace Mnn.Geometry.GeometryBatchMatMul

open Mnn.Foundation.GroupedSums
open Mnn.Foundation.LoopNests
open List

/-- The shapes of the operands and of the output, and the parameters of the operator. -/
structure Product where
  input0 : List Nat
  input1 : List Nat
  output : List Nat
  transposeA : Bool
  transposeB : Bool
  hasBias : Bool
  deriving DecidableEq

/-- `tensor->length(i)` -/
def length (shape : List Nat) (i : Int) : Nat := shape.getD i.toNat 0

namespace Product

variable (product : Product)

def input0_end1 : Nat := length product.input0 (product.input0.length - 2)

def input0_end0 : Nat := length product.input0 (product.input0.length - 1)

def input1_end1 : Nat := length product.input1 (product.input1.length - 2)

def input1_end0 : Nat := length product.input1 (product.input1.length - 1)

def e : Nat :=
  if product.transposeA then product.input0_end0 else product.input0_end1

def l : Nat :=
  if product.transposeA then product.input0_end1 else product.input0_end0

def h : Nat :=
  if product.transposeB then product.input1_end1 else product.input1_end0

end Product

/-! ## Strides of the batches -/

/-- What the loop over the batch axes computes. -/
structure Strides where
  outputStrides : List Nat
  input0Strides : List Nat
  input1Strides : List Nat
  totalSize : Nat
  i0Size : Nat
  i1Size : Nat
  deriving DecidableEq

/-- One axis; the axes behind it are done. -/
def axisStrides (product : Product) (i : Nat) (strides : Strides) : Strides :=
  let i0Offset : Int := product.output.length - product.input0.length
  let i1Offset : Int := product.output.length - product.input1.length
  let moves0 : Bool := i0Offset ≤ i ∧ 1 < length product.input0 (i - i0Offset)
  let moves1 : Bool := i1Offset ≤ i ∧ 1 < length product.input1 (i - i1Offset)
  { outputStrides := strides.totalSize :: strides.outputStrides
    input0Strides := (if moves0 then strides.i0Size else 0) :: strides.input0Strides
    input1Strides := (if moves1 then strides.i1Size else 0) :: strides.input1Strides
    totalSize := strides.totalSize * length product.output i
    i0Size :=
      if moves0 then strides.i0Size * length product.input0 (i - i0Offset)
      else strides.i0Size
    i1Size :=
      if moves1 then strides.i1Size * length product.input1 (i - i1Offset)
      else strides.i1Size }

def batchStrides (product : Product) : Strides :=
  (List.range (product.output.length - 2)).foldr (axisStrides product) ⟨[], [], [], 1, 1, 1⟩

/-- The coordinates of `c` are unrolled, and weighed for both operands. -/
def unroll : List Nat → List Nat → List Nat → Nat → Nat → Nat → Nat × Nat
  | outputStride :: outputStrides, input0Stride :: input0Strides,
      input1Stride :: input1Strides, c, i0Offset, i1Offset =>
      let cord := c / outputStride
      unroll outputStrides input0Strides input1Strides (c % outputStride)
        (i0Offset + input0Stride * cord) (i1Offset + input1Stride * cord)
  | _, _, _, _, i0Offset, i1Offset => (i0Offset, i1Offset)

def Strides.offsets (strides : Strides) (index : Nat) : Nat × Nat :=
  unroll strides.outputStrides strides.input0Strides strides.input1Strides index 0 0

/-! ## Loops -/

structure View where
  offset : Nat
  stride : List Nat
  deriving DecidableEq

/-- A product of matrices; `transposeA` and `transposeB` belong to its operator. -/
structure RegionCommand where
  size : List Nat
  view : List View
  iterIndexes : List Int
  indexes : List Nat
  steps : List Nat
  transposeA : Bool
  transposeB : Bool
  deriving DecidableEq

structure LoopParam where
  command : RegionCommand
  parallel : Bool
  inputIndexes : List Nat
  outputIndexes : List Nat
  loopNumber : Nat
  tensorNumber : Nat
  deriving DecidableEq

inductive Tensor
  | input0
  | input1
  | bias
  | output
  | offsets (host : List Nat)
  deriving DecidableEq

structure Loop where
  param : LoopParam
  inputs : List Tensor
  outputs : List Tensor
  deriving DecidableEq

/-- What the operator is lowered to. -/
inductive Lowered
  -- an operand is empty, and the output is filled with zeros
  | zero
  -- one product, by the operator itself
  | matMul (inputs : List Tensor)
  | loop (loop : Loop)
  deriving DecidableEq

section Lowering

variable (product : Product)

/-- The views on the output, both operands and the bias. -/
def allViews : List View :=
  [⟨0, [product.h, 0, 1]⟩, ⟨0, if product.transposeA then [1, product.e, 0] else [product.l, 1, 0]⟩,
    ⟨0, if product.transposeB then [0, 1, product.l] else [0, product.h, 1]⟩] ++
    if product.hasBias then [⟨0, [0, 0, 1]⟩] else []

/-- One command of a loop over all matrices of the output. -/
def loopOf (iterIndexes : List Int) (indexes steps inputIndexes outputIndexes : List Nat)
    (inputs : List Tensor) (loopNumber number : Nat) : Loop :=
  { param :=
      { command :=
          { size := [product.e, product.l, product.h]
            view := allViews product
            iterIndexes
            indexes
            steps
            transposeA := product.transposeA
            transposeB := product.transposeB }
        parallel := true
        inputIndexes
        outputIndexes
        loopNumber
        tensorNumber := number }
    inputs
    outputs := [.output] }

/-- Constant steps. -/
def fastLoop (strides : Strides) : Loop :=
  let inputNumber := if product.hasBias then 3 else 2
  let number := inputNumber + 1
  let steps :=
    [product.e * product.h, if strides.i0Size = 1 then 0 else product.e * product.l,
      if strides.i1Size = 1 then 0 else product.l * product.h, 0]
  loopOf product ([-1, -1, -1, -1].take number) ([2, 0, 1, 3].take number)
    (steps.take number) ([0, 1, 3].take inputNumber) [2]
    ([.input0, .input1] ++ if product.hasBias then [.bias] else [])
    strides.totalSize number

/-- Steps by tensors of offsets. -/
def indexedLoop (strides : Strides) : Loop :=
  let offsets := (List.range strides.totalSize).map strides.offsets
  let inputNumber := if product.hasBias then 5 else 4
  let number := inputNumber + 1
  let rgNumber := number - 2
  let steps :=
    [product.e * product.h, product.e * product.l, product.l * product.h, 0]
  loopOf product ([-1, 2, 3, -1].take rgNumber) ([4, 0, 1, 5].take rgNumber)
    (steps.take rgNumber) ([0, 1, 2, 3, 5].take inputNumber) [4]
    ([.input0, .input1, .offsets (offsets.map Prod.fst), .offsets (offsets.map Prod.snd)] ++
      if product.hasBias then [.bias] else [])
    strides.totalSize number

def onCompute : Lowered :=
  if product.input0.prod = 0 ∨ product.input1.prod = 0 then
    .zero
  else if product.output.length = 2 then
    .matMul ([.input0, .input1] ++ if product.hasBias then [.bias] else [])
  else
    let strides := batchStrides product
    if strides.i0Size = strides.i1Size ∨ strides.i0Size = 1 ∨ strides.i1Size = 1 then
      .loop (fastLoop product strides)
    else
      .loop (indexedLoop product strides)

end Lowering

/-! ## Execution of a loop -/

namespace Loop

variable (loop : Loop)

/-- The tensor at an index of the stack. -/
def mStack (index : Nat) : Option Tensor :=
  ((loop.param.inputIndexes.zip loop.inputs ++
    loop.param.outputIndexes.zip loop.outputs).reverse.lookup index)

/-- A place in a tensor. -/
structure Pointer where
  tensor : Tensor
  offset : Nat
  deriving DecidableEq

/-- `stackPtr` of the tensor of a view, in a turn of the loop. -/
def stackPtr (iter v : Nat) : Option Pointer := do
  let command := loop.param.command
  let tensor ← loop.mStack (← command.indexes[v]?)
  let iterIndex ← command.iterIndexes[v]?
  let offset ←
    if 0 ≤ iterIndex then
      match ← loop.mStack iterIndex.toNat with
      | .offsets host => host[iter]?
      | _ => none
    else
      some iter
  let view ← command.view[v]?
  some ⟨tensor, offset * (← command.steps[v]?) + view.offset⟩

/-- What a turn multiplies: `CPUMatMul::execute` is called with these pointers. -/
structure Turn where
  A : Pointer
  B : Pointer
  C : Pointer
  bias : Option Pointer
  deriving DecidableEq

def turn (iter : Nat) : Option Turn := do
  let C ← loop.stackPtr iter 0
  let A ← loop.stackPtr iter 1
  let B ← loop.stackPtr iter 2
  if 3 < loop.param.command.iterIndexes.length then
    some ⟨A, B, C, some (← loop.stackPtr iter 3)⟩
  else
    some ⟨A, B, C, none⟩

end Loop

namespace RegionCommand

variable (command : RegionCommand)

def e : Nat := command.size.getD 0 0

def l : Nat := command.size.getD 1 0

def h : Nat := command.size.getD 2 0

/-- Unless the first stride of the output is one. -/
def transposeC : Bool := ((command.view.getD 0 ⟨0, []⟩).stride.getD 0 0) != 1

/-- Where an element is in a matrix of the first operand, which has `l` lines if it is
transposed. -/
def placeA (i k : Nat) : Nat :=
  if command.transposeA then k * command.e + i else i * command.l + k

def placeB (k j : Nat) : Nat :=
  if command.transposeB then j * command.l + k else k * command.h + j

def placeC (i j : Nat) : Nat :=
  if command.transposeC then i * command.h + j else j * command.e + i

end RegionCommand

section Values

variable {Number : Type} [Semiring Number]

/-- An element of a product. -/
def element (command : RegionCommand) (memory : Tensor → Nat → Number) (turn : Loop.Turn)
    (i j : Nat) : Number :=
  (∑ k ∈ Finset.range command.l, memory turn.A.tensor (turn.A.offset + command.placeA i k) *
      memory turn.B.tensor (turn.B.offset + command.placeB k j)) +
    match turn.bias with
    | none => 0
    | some bias => memory bias.tensor (bias.offset + j)

/-- What a turn of the loop writes. -/
def Loop.writes (loop : Loop) (memory : Tensor → Nat → Number) (iter : Nat) :
    List ((Tensor × Nat) × Number) :=
  match loop.turn iter with
  | none => []
  | some turn =>
    (List.range loop.param.command.e).flatMap fun i =>
      (List.range loop.param.command.h).map fun j =>
        ((turn.C.tensor, turn.C.offset + loop.param.command.placeC i j),
          element loop.param.command memory turn i j)

/-- The memory after all turns; the operands are not written. -/
def Loop.execute (loop : Loop) (memory : Tensor → Nat → Number) : Tensor × Nat → Number :=
  storeAll ((List.range loop.param.loopNumber).flatMap (loop.writes memory)) fun place =>
    memory place.1 place.2

end Values

/-! ## Broadcasting -/

/-- Ones are put in front. -/
def padded (rank : Nat) (dims : List Nat) : List Nat :=
  List.replicate (rank - dims.length) 1 ++ dims

/-- Axes are equal, or one of them is one; the output has the other. -/
inductive Broadcast : List Nat → List Nat → List Nat → Prop
  | nil : Broadcast [] [] []
  | cons {a b : Nat} {as bs cs : List Nat} :
      a = b ∨ a = 1 ∨ b = 1 → Broadcast as bs cs →
        Broadcast (a :: as) (b :: bs) ((if a = 1 then b else a) :: cs)

/-- The number of the matrix that a broadcast operand has at these coordinates of the
output, row by row. -/
def matrixNumber : List Nat → List Nat → Nat
  | dim :: dims, coordinate :: coordinates =>
    (if dim = 1 then 0 else coordinate) * dims.prod + matrixNumber dims coordinates
  | _, _ => 0

namespace Product

variable (product : Product)

def batch0 : List Nat := product.input0.take (product.input0.length - 2)

def batch1 : List Nat := product.input1.take (product.input1.length - 2)

def batch : List Nat := product.output.take (product.output.length - 2)

/-- The batch of an operand, with as many axes as that of the output. -/
def padded0 : List Nat := padded (product.output.length - 2) product.batch0

def padded1 : List Nat := padded (product.output.length - 2) product.batch1

/-- Operands of at least two axes that are not empty and fit together. -/
structure Valid : Prop where
  rank0 : 2 ≤ product.input0.length
  rank1 : 2 ≤ product.input1.length
  nonempty0 : ∀ dim ∈ product.input0, 0 < dim
  nonempty1 : ∀ dim ∈ product.input1, 0 < dim
  contracts : (if product.transposeB then product.input1_end0 else product.input1_end1) = product.l
  output : product.output = product.batch ++ [product.e, product.h]
  broadcast : Broadcast product.padded0 product.padded1 product.batch

/-- The number of elements of a tensor; there is one bias for each column. -/
def elementSize : Tensor → Nat
  | .input0 => product.input0.prod
  | .input1 => product.input1.prod
  | .bias => product.h
  | .output => product.output.prod
  | .offsets host => host.length

/-- The place of an element in a matrix of the first operand. -/
def place0 (i k : Nat) : Nat :=
  if product.transposeA then k * product.e + i else i * product.l + k

def place1 (k j : Nat) : Nat :=
  if product.transposeB then j * product.l + k else k * product.h + j

/-- What is read is inside of the tensors, and what is written is. -/
structure Inside (turn : Loop.Turn) (command : RegionCommand) : Prop where
  A :
    ∀ i < product.e, ∀ k < product.l,
      turn.A.offset + command.placeA i k < product.elementSize turn.A.tensor
  B :
    ∀ k < product.l, ∀ j < product.h,
      turn.B.offset + command.placeB k j < product.elementSize turn.B.tensor
  C :
    ∀ i < product.e, ∀ j < product.h,
      turn.C.offset + command.placeC i j < product.elementSize turn.C.tensor
  bias :
    ∀ bias, turn.bias = some bias → ∀ j < product.h,
      bias.offset + j < product.elementSize bias.tensor

/-- An element of the product of the matrices that are paired in the output. -/
def paired {Number : Type} [Semiring Number] (memory : Tensor → Nat → Number)
    (n i j : Nat) : Number :=
  (∑ k ∈ Finset.range product.l, memory .input0
        (matrixNumber product.padded0 (unravel product.batch n) *
            (product.e * product.l) + product.place0 i k) *
      memory .input1 (matrixNumber product.padded1 (unravel product.batch n) *
            (product.l * product.h) + product.place1 k j)) +
    if product.hasBias then memory .bias j else 0

/-- A loop that computes the broadcast product, and stays inside of the tensors. -/
structure IsComputedBy (loop : Loop) : Prop where
  inside :
    ∀ iter < loop.param.loopNumber,
      ∃ turn, loop.turn iter = some turn ∧ product.Inside turn loop.param.command
  values :
    ∀ (Number : Type) [Semiring Number] (memory : Tensor → Nat → Number),
      ∀ n < product.batch.prod, ∀ i < product.e, ∀ j < product.h,
        loop.execute memory (.output, n * (product.e * product.h) + (i * product.h + j)) =
          product.paired memory n i j

end Product

/-! ## Numbers of matrices -/

section Numbers

variable {as bs cs : List Nat}

section

variable (broadcast : Broadcast as bs cs)

include broadcast

theorem Broadcast.length_left : as.length = cs.length := by
  induction broadcast with
  | nil => rfl
  | cons _ _ ih => rw [length_cons, length_cons, ih]

theorem Broadcast.symm : Broadcast bs as cs := by
  induction broadcast with
  | nil => exact .nil
  | @cons a b as bs cs fits _ ih =>
    have isSame : (if a = 1 then b else a) = if b = 1 then a else b := by
      split_ifs <;> omega
    rw [isSame]
    exact .cons (by omega) ih

theorem Broadcast.length_right : bs.length = cs.length :=
  broadcast.symm.length_left

theorem Broadcast.prod_le (nonempty : ∀ b ∈ bs, 0 < b) :
    as.prod ≤ cs.prod := by
  induction broadcast with
  | nil => exact le_refl _
  | @cons a b as bs cs fits _ ih =>
    rw [forall_mem_cons] at nonempty
    rw [prod_cons, prod_cons]
    refine Nat.mul_le_mul ?_ (ih nonempty.2)
    split_ifs <;> omega

/-- An operand with as many matrices as the output has its axes. -/
theorem Broadcast.eq_of_prod (nonempty : ∀ a ∈ as, 0 < a) (nonempty' : ∀ b ∈ bs, 0 < b)
    (same : as.prod = cs.prod) : as = cs := by
  induction broadcast with
  | nil => rfl
  | @cons a b as bs cs fits rest ih =>
    rw [forall_mem_cons] at nonempty nonempty'
    rw [prod_cons, prod_cons] at same
    have atMost := rest.prod_le nonempty'.2
    have positive : 0 < as.prod := prod_pos nonempty.2
    have isSame : a = if a = 1 then b else a := by
      split_ifs at same ⊢ with isOne
      · subst isOne
        by_contra notOne
        have twice : 2 * cs.prod ≤ b * cs.prod := Nat.mul_le_mul_right _ (by omega)
        omega
      · rfl
    rw [← isSame] at same ⊢
    rw [ih nonempty.2 nonempty'.2 (Nat.eq_of_mul_eq_mul_left nonempty.1 same)]

/-- Beside an operand of one matrix the output has the axes of the other one. -/
theorem Broadcast.eq_of_prod_one (one : as.prod = 1) : bs = cs := by
  induction broadcast with
  | nil => rfl
  | @cons a b as bs cs fits rest ih =>
    rw [prod_cons, mul_eq_one] at one
    rw [if_pos one.1, ih one.2]

end

theorem matrixNumber_of_prod_one (one : as.prod = 1) (coordinates : List Nat) :
    matrixNumber as coordinates = 0 := by
  induction as generalizing coordinates with
  | nil => rfl
  | cons a as ih =>
    cases coordinates with
    | nil => rfl
    | cons coordinate coordinates =>
      rw [prod_cons, mul_eq_one] at one
      rw [matrixNumber, if_pos one.1, ih one.2, zero_mul]

/-- An operand with the axes of the output has its matrices in the same order. -/
theorem matrixNumber_unravel (less : n < cs.prod) :
    matrixNumber cs (unravel cs n) = n := by
  induction cs generalizing n with
  | nil =>
    rw [prod_nil, Nat.lt_one_iff] at less
    rw [less]
    rfl
  | cons c cs ih =>
    rw [prod_cons] at less
    have positive : 0 < cs.prod := pos_of_ne_zero fun isZero => by simp [isZero] at less
    rw [unravel, matrixNumber, ih (Nat.mod_lt n positive)]
    split_ifs with isOne
    · subst isOne
      rw [one_mul] at less
      rw [zero_mul, zero_add, Nat.mod_eq_of_lt less]
    · rw [mul_comm, Nat.div_add_mod]

theorem matrixNumber_lt (broadcast : Broadcast as bs cs) (nonempty : ∀ a ∈ as, 0 < a)
    (less : n < cs.prod) : matrixNumber as (unravel cs n) < as.prod := by
  induction broadcast generalizing n with
  | nil => exact one_pos
  | @cons a b as bs cs fits rest ih =>
    rw [forall_mem_cons] at nonempty
    rw [prod_cons] at less
    have positive : 0 < cs.prod := pos_of_ne_zero fun isZero => by simp [isZero] at less
    have isLess := ih nonempty.2 (Nat.mod_lt n positive)
    have isCoordinate : (if a = 1 then 0 else n / cs.prod) < a := by
      split_ifs with isOne
      · omega
      · rw [if_neg isOne] at less
        exact Nat.div_lt_of_lt_mul (mul_comm a cs.prod ▸ less)
    rw [unravel, matrixNumber, prod_cons]
    calc
      (if a = 1 then 0 else n / cs.prod) * as.prod +
            matrixNumber as (unravel cs (n % cs.prod)) <
          (if a = 1 then 0 else n / cs.prod) * as.prod + as.prod :=
        Nat.add_lt_add_left isLess _
      _ = ((if a = 1 then 0 else n / cs.prod) + 1) * as.prod := by
        rw [add_mul, one_mul]
      _ ≤ a * as.prod := Nat.mul_le_mul_right _ isCoordinate

end Numbers

theorem padded_prod (rank : Nat) (dims : List Nat) : (padded rank dims).prod = dims.prod := by
  rw [padded, prod_append, prod_replicate, one_pow, one_mul]

/-! ## What the axes give -/

/-- The strides of an operand, zero along axes of one. -/
def operandStrides : List Nat → List Nat
  | [] => []
  | dim :: dims => (if 1 < dim then dims.prod else 0) :: operandStrides dims

/-- The length of an axis of an operand, if it has it. -/
def axisLength (shape output : List Nat) (i : Nat) : Nat :=
  if (output.length : Int) - shape.length ≤ i then
    length shape (i - ((output.length : Int) - shape.length))
  else
    1

theorem foldr_axisStrides (product : Product) (axes : List Nat)
    (nonempty0 : ∀ i ∈ axes, 0 < axisLength product.input0 product.output i)
    (nonempty1 : ∀ i ∈ axes, 0 < axisLength product.input1 product.output i) :
    axes.foldr (axisStrides product) ⟨[], [], [], 1, 1, 1⟩ =
      { outputStrides := strides (axes.map fun (i : Nat) => length product.output i)
        input0Strides := operandStrides (axes.map (axisLength product.input0 product.output))
        input1Strides := operandStrides (axes.map (axisLength product.input1 product.output))
        totalSize := (axes.map fun (i : Nat) => length product.output i).prod
        i0Size := (axes.map (axisLength product.input0 product.output)).prod
        i1Size := (axes.map (axisLength product.input1 product.output)).prod } := by
  induction axes with
  | nil => rfl
  | cons i axes ih =>
    rw [forall_mem_cons] at nonempty0 nonempty1
    have moves (shape : List Nat) :
        ((product.output.length : Int) - shape.length ≤ i ∧
            1 < length shape (i - ((product.output.length : Int) - shape.length))) ↔
          1 < axisLength shape product.output i := by
      rw [axisLength]
      split_ifs with isThere
      · exact and_iff_right isThere
      · exact iff_of_false (fun both => isThere both.1) (lt_irrefl 1)
    have grows {shape : List Nat} (size : Nat) (nonempty : 0 < axisLength shape product.output i) :
        (if 1 < axisLength shape product.output i then
            size * length shape (i - ((product.output.length : Int) - shape.length))
          else size) =
          axisLength shape product.output i * size := by
      split_ifs with isMore
      · have isThere := ((moves shape).mpr isMore).1
        rw [axisLength, if_pos isThere, mul_comm]
      · have isOne : axisLength shape product.output i = 1 := by omega
        rw [isOne, one_mul]
    rw [foldr_cons, ih nonempty0.2 nonempty1.2, axisStrides]
    simp only [decide_eq_true_eq, moves, grows _ nonempty0.1, grows _ nonempty1.1,
      map_cons, strides, operandStrides, prod_cons, mul_comm]

/-- The loop over the coordinates finds the numbers of both matrices. -/
theorem unroll_eq (broadcast : Broadcast as bs cs)
    (nonempty : ∀ a ∈ as, 0 < a) (nonempty' : ∀ b ∈ bs, 0 < b) (c first second : Nat) :
    unroll (strides cs) (operandStrides as) (operandStrides bs) c first second =
      (first + matrixNumber as (unravel cs c), second + matrixNumber bs (unravel cs c)) := by
  induction broadcast generalizing c first second with
  | nil => rfl
  | @cons a b as bs cs fits rest ih =>
    rw [forall_mem_cons] at nonempty nonempty'
    have term {dim : Nat} (positive : 0 < dim) (prod cord : Nat) :
        (if 1 < dim then prod else 0) * cord = (if dim = 1 then 0 else cord) * prod := by
      by_cases isOne : dim = 1
      · simp [isOne]
      · rw [if_pos (by omega), if_neg isOne, mul_comm]
    rw [strides, operandStrides, operandStrides, unroll, unravel, matrixNumber, matrixNumber]
    rw [ih nonempty.2 nonempty'.2, term nonempty.1, term nonempty'.1, add_assoc, add_assoc]

/-! ## The shapes of operands -/

theorem map_length (shape : List Nat) :
    ((List.range (shape.length - 2)).map fun (i : Nat) => length shape i) =
      shape.take (shape.length - 2) := by
  refine ext_getElem (by simp) fun i isIn isIn' => ?_
  rw [getElem_map, getElem_range, getElem_take, length, Int.toNat_natCast, getD_eq_getElem]

theorem map_axisLength {output : List Nat} (rank : 2 ≤ shape.length)
    (fits : shape.length ≤ output.length) :
    (List.range (output.length - 2)).map (axisLength shape output) =
      padded (output.length - 2) (shape.take (shape.length - 2)) := by
  refine ext_getElem ?_ fun i isIn isIn' => ?_
  · simp only [length_map, length_range, padded, length_append, length_replicate, length_take]
    omega
  · rw [length_map, length_range] at isIn
    rw [getElem_map, getElem_range, axisLength]
    simp only [padded, length_take]
    split_ifs with isThere
    · rw [getElem_append_right (by rw [length_replicate]; omega),
        getElem_take, length, getD_eq_getElem _ _ (by omega)]
      congr 1
      rw [length_replicate]
      omega
    · rw [getElem_append_left (by rw [length_replicate]; omega), getElem_replicate]

theorem prod_take (rank : 2 ≤ shape.length) :
    shape.prod = (shape.take (shape.length - 2)).prod *
        (length shape (shape.length - 2) * length shape (shape.length - 1)) := by
  have isSplit :
      shape = shape.take (shape.length - 2) ++
          [length shape (shape.length - 2), length shape (shape.length - 1)] := by
    refine ext_getElem ?_ fun i isIn isIn' => ?_
    · simp only [length_append, length_take, length_cons, length_nil]
      omega
    · by_cases isBatch : i < shape.length - 2
      · rw [getElem_append_left (by rw [length_take]; omega), getElem_take]
      · rw [getElem_append_right (by rw [length_take]; omega)]
        have isLast : i = shape.length - 2 ∨ i = shape.length - 1 := by omega
        rcases isLast with rfl | rfl
        · have isZero : shape.length - 2 - (shape.take (shape.length - 2)).length = 0 := by
            rw [length_take]
            omega
          simp only [isZero, getElem_cons_zero]
          rw [length, getD_eq_getElem _ _ (by omega)]
          congr 1
          omega
        · have isOne : shape.length - 1 - (shape.take (shape.length - 2)).length = 1 := by
            rw [length_take]
            omega
          simp only [isOne, getElem_cons_succ, getElem_cons_zero]
          rw [length, getD_eq_getElem _ _ (by omega)]
          congr 1
          omega
  have isProd := congrArg List.prod isSplit
  rw [prod_append] at isProd
  simpa using isProd

theorem length_pos (nonempty : ∀ dim ∈ shape, 0 < dim) {i : Int}
    (isIn : i.toNat < shape.length) : 0 < length shape i := by
  rw [length, getD_eq_getElem _ _ isIn]
  exact nonempty _ (getElem_mem isIn)

theorem padded_pos {rank : Nat} {dims : List Nat} (nonempty : ∀ dim ∈ dims, 0 < dim) :
    ∀ dim ∈ padded rank dims, 0 < dim := by
  intro dim isMem
  rcases mem_append.mp isMem with isMem | isMem
  · rw [eq_of_mem_replicate isMem]
    exact one_pos
  · exact nonempty dim isMem

namespace Product

variable {product : Product}

namespace Valid

section

variable (valid : product.Valid)

include valid

theorem length_output :
    product.output.length = product.batch.length + 2 := by
  have lengths := congrArg List.length valid.output
  simpa using lengths

theorem length_input0 : product.input0.length ≤ product.output.length := by
  have same := valid.broadcast.length_left
  have isLength := valid.length_output
  rw [padded0, padded, length_append, length_replicate, batch0, length_take] at same
  have rank := valid.rank0
  omega

theorem length_input1 : product.input1.length ≤ product.output.length := by
  have same := valid.broadcast.length_right
  have isLength := valid.length_output
  rw [padded1, padded, length_append, length_replicate, batch1, length_take] at same
  have rank := valid.rank1
  omega

theorem padded0_pos : ∀ dim ∈ product.padded0, 0 < dim :=
  padded_pos fun dim isMem => valid.nonempty0 dim (mem_of_mem_take isMem)

theorem padded1_pos : ∀ dim ∈ product.padded1, 0 < dim :=
  padded_pos fun dim isMem => valid.nonempty1 dim (mem_of_mem_take isMem)

theorem ends0_pos : 0 < product.input0_end1 ∧ 0 < product.input0_end0 := by
  have rank := valid.rank0
  constructor <;> exact length_pos valid.nonempty0 (by omega)

theorem e_pos : 0 < product.e := by
  rw [e]
  split_ifs
  · exact valid.ends0_pos.2
  · exact valid.ends0_pos.1

theorem l_pos : 0 < product.l := by
  rw [l]
  split_ifs
  · exact valid.ends0_pos.1
  · exact valid.ends0_pos.2

theorem prod_input0 :
    product.input0.prod = product.padded0.prod * (product.e * product.l) := by
  rw [padded0, padded_prod, batch0, prod_take valid.rank0, e, l]
  split_ifs
  · rw [mul_comm product.input0_end0]
    rfl
  · rfl

theorem prod_input1 :
    product.input1.prod = product.padded1.prod * (product.l * product.h) := by
  have contracts := valid.contracts
  rw [padded1, padded_prod, batch1, prod_take valid.rank1, ← contracts, h]
  split_ifs
  · rw [mul_comm product.input1_end0]
    rfl
  · rfl

theorem prod_output :
    product.output.prod = product.batch.prod * (product.e * product.h) := by
  conv_lhs => rw [valid.output, prod_append]
  simp

theorem batchStrides_eq :
    batchStrides product =
      { outputStrides := strides product.batch
        input0Strides := operandStrides product.padded0
        input1Strides := operandStrides product.padded1
        totalSize := product.batch.prod
        i0Size := product.padded0.prod
        i1Size := product.padded1.prod } := by
  have axes0 := map_axisLength valid.rank0 valid.length_input0
  have axes1 := map_axisLength valid.rank1 valid.length_input1
  have isStrides := foldr_axisStrides product (List.range (product.output.length - 2))
      (fun i isMem =>
        valid.padded0_pos _ (by
          rw [padded0, batch0, ← axes0]
          exact mem_map_of_mem isMem))
      (fun i isMem =>
        valid.padded1_pos _ (by
          rw [padded1, batch1, ← axes1]
          exact mem_map_of_mem isMem))
  rw [batchStrides, isStrides, map_length, axes0, axes1]
  rfl

theorem offsets_eq (index : Nat) :
    (batchStrides product).offsets index =
      (matrixNumber product.padded0 (unravel product.batch index),
        matrixNumber product.padded1 (unravel product.batch index)) := by
  rw [Strides.offsets, valid.batchStrides_eq]
  simp only [unroll_eq valid.broadcast valid.padded0_pos valid.padded1_pos, zero_add]

end

end Valid

/-! ## Turns -/

/-- A loop of which each turn multiplies the matrices with these numbers. -/
structure Turns (product : Product) (loop : Loop) (first second : Nat → Nat) : Prop where
  size : loop.param.command.size = [product.e, product.l, product.h]
  transposeA : loop.param.command.transposeA = product.transposeA
  transposeB : loop.param.command.transposeB = product.transposeB
  view : loop.param.command.view = allViews product
  loopNumber : loop.param.loopNumber = product.batch.prod
  turn :
    ∀ iter < product.batch.prod, loop.turn iter =
        some
          { A := ⟨.input0, first iter * (product.e * product.l)⟩
            B := ⟨.input1, second iter * (product.l * product.h)⟩
            C := ⟨.output, iter * (product.e * product.h)⟩
            bias := if product.hasBias then some ⟨.bias, 0⟩ else none }

namespace Turns

variable {loop : Loop} {first second : Nat → Nat}

section

variable (turns : product.Turns loop first second)

include turns

theorem placeA_eq (i k : Nat) :
    loop.param.command.placeA i k = product.place0 i k := by
  rw [RegionCommand.placeA, place0, RegionCommand.e, RegionCommand.l, turns.size, turns.transposeA]
  rfl

theorem placeB_eq (k j : Nat) :
    loop.param.command.placeB k j = product.place1 k j := by
  rw [RegionCommand.placeB, place1, RegionCommand.l, RegionCommand.h, turns.size, turns.transposeB]
  rfl

/-- A matrix of one column is stored the same way if it is transposed. -/
theorem placeC_eq (i : Nat)
    (less : j < product.h) : loop.param.command.placeC i j = i * product.h + j := by
  have isFlag : loop.param.command.transposeC = (product.h != 1) := by
    rw [RegionCommand.transposeC, turns.view]
    rfl
  have isWidth : loop.param.command.h = product.h := by
    rw [RegionCommand.h, turns.size]
    rfl
  rw [RegionCommand.placeC, isFlag, isWidth]
  by_cases isOne : product.h = 1
  · have isZero : j = 0 := by omega
    rw [isOne, isZero, bne_self_eq_false, if_neg Bool.false_ne_true, zero_mul,
      zero_add, mul_one, add_zero]
  · rw [if_pos (bne_iff_ne.mpr isOne)]

end

theorem place0_lt {i : Nat} (isRow : i < product.e) (isColumn : k < product.l) :
    product.place0 i k < product.e * product.l := by
  rw [place0]
  split_ifs
  · rw [mul_comm product.e]
    exact Core.digits_lt isColumn isRow
  · exact Core.digits_lt isRow isColumn

theorem place1_lt (isRow : k < product.l) (isColumn : j < product.h) :
    product.place1 k j < product.l * product.h := by
  rw [place1]
  split_ifs
  · rw [mul_comm product.l]
    exact Core.digits_lt isColumn isRow
  · exact Core.digits_lt isRow isColumn

section

variable (turns : product.Turns loop first second)

include turns

/-- Turns that multiply matrices of the operands stay inside of them. -/
theorem inside (valid : product.Valid) (isTurn : iter < product.batch.prod)
    (isFirst : first iter < product.padded0.prod) (isSecond : second iter < product.padded1.prod) :
    ∃ turn, loop.turn iter = some turn ∧ product.Inside turn loop.param.command := by
  refine ⟨_, turns.turn iter isTurn, ?_⟩
  constructor
  · intro i isRow k isColumn
    rw [turns.placeA_eq, elementSize, valid.prod_input0]
    exact Core.digits_lt isFirst (place0_lt isRow isColumn)
  · intro k isRow j isColumn
    rw [turns.placeB_eq, elementSize, valid.prod_input1]
    exact Core.digits_lt isSecond (place1_lt isRow isColumn)
  · intro i isRow j isColumn
    rw [turns.placeC_eq i isColumn, elementSize, valid.prod_output]
    exact Core.digits_lt isTurn (Core.digits_lt isRow isColumn)
  · intro bias isBias j isColumn
    simp only [Option.ite_none_right_eq_some, Option.some_inj] at isBias
    rw [← isBias.2, elementSize, zero_add]
    exact isColumn

theorem mem_writes {Number : Type} [Semiring Number] (memory : Tensor → Nat → Number)
    (isTurn : iter < product.batch.prod) (write : (Tensor × Nat) × Number) :
    write ∈ loop.writes memory iter ↔ ∃ i < product.e, ∃ j < product.h, write =
          ((.output, iter * (product.e * product.h) + (i * product.h + j)),
            (∑ k ∈ Finset.range product.l, memory .input0
                  (first iter * (product.e * product.l) + product.place0 i k) *
                memory .input1 (second iter * (product.l * product.h) + product.place1 k j)) +
              if product.hasBias then memory .bias j else 0) := by
  have isHeight : loop.param.command.e = product.e := by
    rw [RegionCommand.e, turns.size]
    rfl
  have isWidth : loop.param.command.h = product.h := by
    rw [RegionCommand.h, turns.size]
    rfl
  have isDepth : loop.param.command.l = product.l := by
    rw [RegionCommand.l, turns.size]
    rfl
  have isBias (j : Nat) :
      (match (if product.hasBias then some (⟨.bias, 0⟩ : Loop.Pointer) else none) with
        | none => 0
        | some bias => memory bias.tensor (bias.offset + j)) =
        if product.hasBias then memory .bias j else 0 := by
    cases product.hasBias
    · rfl
    · show memory _ (0 + j) = _
      rw [zero_add]
      rfl
  rw [Loop.writes, turns.turn iter isTurn]
  simp only [mem_flatMap, mem_map, mem_range, element, isHeight, isWidth,
    isDepth, turns.placeA_eq, turns.placeB_eq, isBias]
  refine exists_congr fun i => and_congr_right fun _ => exists_congr fun j => ?_
  refine and_congr_right fun isColumn => ?_
  rw [turns.placeC_eq i isColumn, eq_comm]

/-- Turns that multiply the matrices that are paired compute the product. -/
theorem isComputedBy (valid : product.Valid) (isFirst :
      ∀ n < product.batch.prod,
        first n = matrixNumber product.padded0 (unravel product.batch n))
    (isSecond :
      ∀ n < product.batch.prod, second n = matrixNumber product.padded1 (unravel product.batch n)) :
    product.IsComputedBy loop := by
  constructor
  · intro iter isTurn
    rw [turns.loopNumber] at isTurn
    refine turns.inside valid isTurn ?_ ?_
    · rw [isFirst iter isTurn]
      exact matrixNumber_lt valid.broadcast valid.padded0_pos isTurn
    · rw [isSecond iter isTurn]
      exact matrixNumber_lt valid.broadcast.symm valid.padded1_pos isTurn
  · intro Number _ memory n isMatrix i isRow j isColumn
    rw [Loop.execute, turns.loopNumber]
    refine storeAll_of_mem (fun value isWritten => ?_) ?_ _
    · rcases mem_flatMap.mp isWritten with ⟨iter, isTurn, isWritten⟩
      rw [mem_range] at isTurn
      rcases (turns.mem_writes memory isTurn _).mp isWritten with
        ⟨i', isRow', j', isColumn', same⟩
      rw [Prod.mk.injEq, Prod.mk.injEq] at same
      have matrices :=
        Core.digits_inj (Core.digits_lt isRow isColumn) (Core.digits_lt isRow' isColumn') same.1.2
      obtain ⟨rfl, rfl⟩ := Core.digits_inj isColumn isColumn' matrices.2
      obtain rfl := matrices.1
      rw [same.2, paired, isFirst n isMatrix, isSecond n isMatrix]
    · refine mem_flatMap.mpr ⟨n, mem_range.mpr isMatrix, ?_⟩
      refine (turns.mem_writes memory isMatrix _).mpr ⟨i, isRow, j, isColumn, ?_⟩
      rw [paired, isFirst n isMatrix, isSecond n isMatrix]

end

end Turns

theorem turn_fastLoop (product : Product) (strides : Strides) (iter : Nat) :
    (fastLoop product strides).turn iter =
      some
        { A := ⟨.input0, iter * if strides.i0Size = 1 then 0 else product.e * product.l⟩
          B := ⟨.input1, iter * if strides.i1Size = 1 then 0 else product.l * product.h⟩
          C := ⟨.output, iter * (product.e * product.h)⟩
          bias := if product.hasBias then some ⟨.bias, 0⟩ else none } := by
  cases isBias : product.hasBias <;>
    simp [fastLoop, loopOf, Loop.turn, Loop.stackPtr, Loop.mStack, List.lookup, allViews, isBias]

theorem turn_indexedLoop (product : Product) (strides : Strides)
    (isTurn : iter < strides.totalSize) :
    (indexedLoop product strides).turn iter =
      some
        { A := ⟨.input0, (strides.offsets iter).1 * (product.e * product.l)⟩
          B := ⟨.input1, (strides.offsets iter).2 * (product.l * product.h)⟩
          C := ⟨.output, iter * (product.e * product.h)⟩
          bias := if product.hasBias then some ⟨.bias, 0⟩ else none } := by
  cases isBias : product.hasBias <;>
    simp [indexedLoop, loopOf, Loop.turn, Loop.stackPtr, Loop.mStack, List.lookup, allViews,
      isBias, isTurn]

theorem turns_indexedLoop (valid : product.Valid) :
    product.Turns (indexedLoop product (batchStrides product))
      (fun n => matrixNumber product.padded0 (unravel product.batch n))
      (fun n => matrixNumber product.padded1 (unravel product.batch n)) := by
  have total : (batchStrides product).totalSize = product.batch.prod := by
    rw [valid.batchStrides_eq]
  refine ⟨rfl, rfl, rfl, rfl, total, fun iter isTurn => ?_⟩
  rw [turn_indexedLoop product _ (total ▸ isTurn), valid.offsets_eq]

theorem turns_fastLoop (valid : product.Valid) :
    product.Turns (fastLoop product (batchStrides product))
      (fun n => if product.padded0.prod = 1 then 0 else n)
      (fun n => if product.padded1.prod = 1 then 0 else n) := by
  have total : (batchStrides product).totalSize = product.batch.prod := by
    rw [valid.batchStrides_eq]
  refine ⟨rfl, rfl, rfl, rfl, total, fun iter isTurn => ?_⟩
  have moves (size step : Nat) :
      (iter * if size = 1 then 0 else step) = (if size = 1 then 0 else iter) * step := by
    split_ifs
    · rw [mul_zero, zero_mul]
    · rfl
  rw [turn_fastLoop, valid.batchStrides_eq, moves, moves]

/-- Where an operand has one matrix or all, constant steps find the paired ones. -/
theorem number_eq (broadcast : Broadcast as bs cs)
    (nonempty : ∀ a ∈ as, 0 < a) (nonempty' : ∀ b ∈ bs, 0 < b)
    (oneOrAll : as.prod = 1 ∨ as.prod = cs.prod) (less : n < cs.prod) :
    (if as.prod = 1 then 0 else n) = matrixNumber as (unravel cs n) := by
  by_cases isOne : as.prod = 1
  · rw [if_pos isOne, matrixNumber_of_prod_one isOne]
  · have isAll := oneOrAll.resolve_left isOne
    rw [if_neg isOne, broadcast.eq_of_prod nonempty nonempty' isAll, matrixNumber_unravel less]

/-- The operands differ in their numbers of matrices, or have as many as the output. -/
def StepsFit (product : Product) : Prop :=
  product.batch0.prod = product.batch1.prod → product.batch0.prod = product.batch.prod

/-- Constant steps are wrong only if both operands have as many matrices, and the output
has more. -/
theorem isComputedBy_fastLoop_iff (valid : product.Valid) (isFast :
      product.padded0.prod = product.padded1.prod ∨ product.padded0.prod = 1 ∨
        product.padded1.prod = 1) :
    product.IsComputedBy (fastLoop product (batchStrides product)) ↔ product.StepsFit := by
  have turns := turns_fastLoop valid
  have prod0 : product.batch0.prod = product.padded0.prod := (padded_prod _ _).symm
  have prod1 : product.batch1.prod = product.padded1.prod := (padded_prod _ _).symm
  rw [StepsFit, prod0, prod1]
  constructor
  · intro computed same
    by_contra fewer
    have atMost := valid.broadcast.prod_le valid.padded1_pos
    have notOne : product.padded0.prod ≠ 1 := by
      intro isOne
      have axes := valid.broadcast.eq_of_prod_one isOne
      rw [← axes] at fewer
      exact fewer same
    -- turn number `padded0.prod` reads behind the first operand
    have isTurn : product.padded0.prod < product.batch.prod := by omega
    rcases computed.inside _ (turns.loopNumber ▸ isTurn) with ⟨turn, isThere, inside⟩
    rw [turns.turn _ isTurn, Option.some_inj] at isThere
    subst isThere
    have reads := inside.A 0 valid.e_pos 0 valid.l_pos
    rw [turns.placeA_eq, elementSize, valid.prod_input0] at reads
    simp only [if_neg notOne] at reads
    omega
  · intro fits
    have one0 : product.padded1.prod = 1 → product.padded0.prod = product.batch.prod :=
      fun isOne => congrArg List.prod (valid.broadcast.symm.eq_of_prod_one isOne)
    have one1 : product.padded0.prod = 1 → product.padded1.prod = product.batch.prod :=
      fun isOne => congrArg List.prod (valid.broadcast.eq_of_prod_one isOne)
    have oneOrAll0 : product.padded0.prod = 1 ∨ product.padded0.prod = product.batch.prod := by
      rcases isFast with same | isOne | isOne
      · exact Or.inr (fits same)
      · exact Or.inl isOne
      · exact Or.inr (one0 isOne)
    have oneOrAll1 : product.padded1.prod = 1 ∨ product.padded1.prod = product.batch.prod := by
      rcases isFast with same | isOne | isOne
      · exact Or.inr (same ▸ fits same)
      · exact Or.inr (one1 isOne)
      · exact Or.inl isOne
    refine turns.isComputedBy valid (fun n less => ?_) fun n less => ?_
    · exact number_eq valid.broadcast valid.padded0_pos valid.padded1_pos oneOrAll0 less
    · exact number_eq valid.broadcast.symm valid.padded1_pos valid.padded0_pos oneOrAll1 less

end Product

/-- Two matrices that are used three times, and six others, with a bias. -/
def repeated : Product where
  input0 := [2, 1, 3]
  input1 := [3, 2, 2, 3]
  output := [3, 2, 1, 2]
  transposeA := false
  transposeB := true
  hasBias := true

theorem valid_repeated : repeated.Valid where
  rank0 := by decide
  rank1 := by decide
  nonempty0 := by decide
  nonempty1 := by decide
  contracts := rfl
  output := rfl
  broadcast := .cons (a := 1) (b := 3) (by decide) (.cons (a := 2) (b := 2) (by decide) .nil)

/-- Two matrices are multiplied with each of two others. -/
def crossed : Product where
  input0 := [2, 1, 1, 1]
  input1 := [1, 2, 1, 1]
  output := [2, 2, 1, 1]
  transposeA := false
  transposeB := false
  hasBias := false

end Mnn.Geometry.GeometryBatchMatMul
