import Mathlib

/-!
# Constant tensors

`buildConstantTensors` decides which operators are evaluated before shapes are computed.
Operators that read constant contents only are constant.  What the computation of a shape
reads is made constant, and from there constants spread backward over the operators.
-/

namespace Mnn.Geometry.GeometryComputerUtils

open List
open Function

/-! ## Operators -/

/-- The operator types that the functions below tell apart. -/
inductive OpType
  | BatchToSpaceND
  | BroadcastTo
  | Col2Im
  | Const
  | CosineSimilarity
  | Crop
  | CropAndResize
  | CumSum
  | Deconvolution
  | ExpandDims
  | Fill
  | GatherV2
  | GridSample
  | Input
  | Interp
  | Interp3D
  | LinSpace
  | NonMaxSuppressionV2
  | OneHot
  | Padding
  | PriorBox
  | QuantizedReshape
  | RandomNormal
  | RandomUniform
  | Range
  | Rank
  | Reduction
  | Reshape
  | Resize
  | Reverse
  | ReverseSequence
  | ScatterNd
  | Segment
  | SetDiff1D
  | Shape
  | Size
  | Slice
  | SliceTf
  | SpaceToBatchND
  | Squeeze
  | Stft
  | StridedSlice
  | TensorArray
  | TensorArrayErase
  | TensorArrayGather
  | TensorArrayInsert
  | TensorArrayRead
  | TensorArrayScatter
  | TensorArraySplit
  | TensorArrayWrite
  | Tile
  | TopKV2
  | TrainableParam
  | Transpose
  | Unique
  | Unsqueeze
  | Where
  | ZeroGrad
  | ZerosLike
  | other (number : Nat)
  deriving DecidableEq

/-- The parameters that are read. -/
inductive OpParameter
  | Convolution2D (hasOutputShape : Option Bool)
  | Extra
  | StridedSliceParam (fromType : Int)
  | other
  deriving DecidableEq

structure Op where
  type : OpType
  main : OpParameter
  deriving DecidableEq

/-- Whether the operator computes with the content of an input. -/
def opNeedContent (op : Op) (index : Nat) : Bool :=
  match op.type with
  | .ZerosLike | .ZeroGrad | .Shape | .Rank | .Const | .Size | .PriorBox => false
  | .Interp | .Crop | .Reshape | .Reduction | .Resize => index != 1
  | .GridSample => index != 2
  | _ => true

/-- The inputs that the size computers are registered with. -/
def mNeedContentInputIndex : OpType → List Int
  | .SetDiff1D => [0, 1]
  | .Reshape | .QuantizedReshape => [1]
  | .ScatterNd => [2]
  | .RandomUniform | .RandomNormal => [0]
  | .Interp | .Interp3D => [1]
  | .CosineSimilarity => [2]
  | .TopKV2 => [1, 2]
  | .SpaceToBatchND => [1, 2]
  | .Padding => [1]
  | .CropAndResize => [3]
  | .SliceTf => [1, 2]
  | .Slice => [1]
  | .Range => [0, 1, 2]
  | .OneHot => [1]
  | .Transpose => [1]
  | .BatchToSpaceND => [1, 2]
  | .LinSpace => [2]
  | .Fill => [0]
  | .Segment => [1]
  | .Col2Im => [1]
  | .Reduction => [1]
  | .Unique => [0]
  | .Stft => [1]
  | .GridSample => [2]
  | .TensorArray => [0]
  | .TensorArrayRead | .TensorArrayWrite | .TensorArrayGather => [1]
  | .TensorArrayScatter => [1]
  | .TensorArraySplit => [2]
  | .TensorArrayInsert | .TensorArrayErase => [1]
  | .NonMaxSuppressionV2 => [2, 3]
  | .GatherV2 => [2]
  | .BroadcastTo => [1]
  | .Tile => [1]
  | .Where => [0]
  | .ExpandDims => [1]
  | _ => []

/-- The inputs whose content the shapes of the outputs depend on. -/
def needInputContent (op : Op) (inputSize : Nat) : List Int :=
  if op.type = .Deconvolution ∧ op.main = .Convolution2D (some true) then
    [(inputSize : Int) - 1]
  else if 1 < inputSize ∧
      (op.type = .Squeeze ∨ op.type = .Unsqueeze ∨ op.type = .ReverseSequence ∨
        op.type = .Reverse) then
    [1]
  else if op.type = .CumSum then
    [1]
  else
    match op.type, op.main with
    | .StridedSlice, .StridedSliceParam fromType =>
      if fromType = 0 then
        -- with five inputs it is a write
        if inputSize = 5 then [] else [1, 2, 3]
      else
        [1, 2, 3, 4]
    | type, _ => mNeedContentInputIndex type

/-- A `Where` of an old model, which is not asked for the content it needs. -/
def isLegacyWhere (op : Op) : Bool := op.type == .Where && op.main != .Extra

/-! ## Tensors and operators in the schedule -/

inductive Usage
  | NORMAL
  | INPUT
  | OUTPUT
  | CONSTANT
  | TRAINABLE
  deriving DecidableEq

/-- `geometryStage` is the bit `GEOMETRY_STAGE` of the stage mask. -/
structure Describe where
  usage : Usage
  isMutable : Bool
  geometryStage : Bool
  deriving DecidableEq

inductive ScheduleType
  | SEPARATE
  | CONSTANT
  | NOT_SEPERATE
  deriving DecidableEq

/-- `mNeedCompareContent` belongs to the compute cache. -/
structure OpCacheInfo (Tensor : Type) where
  op : Op
  inputs : List Tensor
  outputs : List Tensor
  type : ScheduleType
  mNeedCompareContent : List Nat
  deriving DecidableEq

variable {Tensor : Type}

/-- What describes each tensor; infos share it. -/
abbrev Describes (Tensor : Type) : Type := Tensor → Describe

def Describes.isConstant (describes : Describes Tensor) (t : Tensor) : Bool :=
  (describes t).usage == .CONSTANT

section Passes

variable [DecidableEq Tensor]

def Describes.setConstant (describes : Describes Tensor) (t : Tensor) : Describes Tensor :=
  update describes t { describes t with usage := .CONSTANT }

def Describes.setGeometryStage (describes : Describes Tensor) (t : Tensor) : Describes Tensor :=
  update describes t { describes t with geometryStage := true }

def Describes.setConstants (describes : Describes Tensor) (ts : List Tensor) : Describes Tensor :=
  ts.foldl Describes.setConstant describes

/-! ## The passes -/

/-- Check of an operator in the middle: it is constant if what it reads is. -/
def middleConst (describes : Describes Tensor) (info : OpCacheInfo Tensor) :
    Describes Tensor × OpCacheInfo Tensor :=
  if info.op.type = .Const then
    (describes, info)
  else if info.inputs.zipIdx.all fun (t, i) =>
      describes.isConstant t || !opNeedContent info.op i then
    (describes.setConstants info.outputs, { info with type := .CONSTANT })
  else
    (describes, info)

def middleConsts (describes : Describes Tensor) :
    List (OpCacheInfo Tensor) → Describes Tensor × List (OpCacheInfo Tensor)
  | [] => (describes, [])
  | info :: infos =>
    let (describes, info) := middleConst describes info
    let (describes, infos) := middleConsts describes infos
    (describes, info :: infos)

/-- What the second pass changes at one operator. -/
structure Forced (Tensor : Type) where
  describes : Describes Tensor
  info : OpCacheInfo Tensor
  isBreak : Bool

/-- One input that a shape depends on. -/
def forceInput (forced : Forced Tensor) (index : Int) : Forced Tensor :=
  if index < 0 then
    -- too large as `size_t`
    forced
  else
    match forced.info.inputs[index.toNat]? with
    | none => forced
    | some t =>
      let describes := forced.describes.setGeometryStage t
      let isConstant := describes.isConstant t
      { describes := if isConstant then describes else describes.setConstant t
        info :=
          if (describes t).isMutable then
            { forced.info with
              mNeedCompareContent := forced.info.mNeedCompareContent ++ [index.toNat] }
          else
            forced.info
        isBreak := forced.isBreak || !isConstant }

/-- Check of an operator whose size needs contents. -/
def forceSize (describes : Describes Tensor) (info : OpCacheInfo Tensor) : Forced Tensor :=
  if info.op.type = .Const then
    ⟨describes, info, false⟩
  else if isLegacyWhere info.op then
    ⟨describes, info, false⟩
  else
    (needInputContent info.op info.inputs.length).foldl forceInput ⟨describes, info, false⟩

/-- Also the index of the last operator that forced a tensor to be constant. -/
def forceSizes (describes : Describes Tensor) (infoIndex : Nat) (breakIndex : Int) :
    List (OpCacheInfo Tensor) → Describes Tensor × List (OpCacheInfo Tensor) × Int
  | [] => (describes, [], breakIndex)
  | info :: infos =>
    let forced := forceSize describes info
    let breakIndex := if forced.isBreak then (infoIndex : Int) else breakIndex
    let (describes, infos, breakIndex) :=
      forceSizes forced.describes (infoIndex + 1) breakIndex infos
    (describes, forced.info :: infos, breakIndex)

/-- An operator of which a result is constant turns constant, as all that it reads. -/
def turnConst (describes : Describes Tensor) (info : OpCacheInfo Tensor) :
    Describes Tensor × OpCacheInfo Tensor × Bool :=
  if info.type = .CONSTANT then
    (describes, info, false)
  else if info.outputs.any describes.isConstant then
    ((describes.setConstants info.outputs).setConstants info.inputs,
      { info with type := .CONSTANT }, true)
  else
    (describes, info, false)

def turnConsts (describes : Describes Tensor) :
    List (OpCacheInfo Tensor) → Describes Tensor × List (OpCacheInfo Tensor) × Bool
  | [] => (describes, [], false)
  | info :: infos =>
    let (describes, info, turned) := turnConst describes info
    let (describes, infos, hasConst) := turnConsts describes infos
    (describes, info :: infos, turned || hasConst)

/-- Turns until nothing does, unless there are more than `fuel` passes. -/
def turnAll : Nat → Describes Tensor → List (OpCacheInfo Tensor) →
    Option (Describes Tensor × List (OpCacheInfo Tensor))
  | 0, _, _ => none
  | fuel + 1, describes, infos =>
    match turnConsts describes infos with
    | (describes, infos, true) => turnAll fuel describes infos
    | (describes, infos, false) => some (describes, infos)

/-- Marks of the tensors around a constant operator. -/
def markConst (describes : Describes Tensor) (info : OpCacheInfo Tensor) : Describes Tensor :=
  if info.type = .CONSTANT then
    (info.inputs.foldl Describes.setGeometryStage describes).setConstants info.outputs
  else
    describes

/-- The tensors, the operators and `breakIndex`. -/
structure ConstantTensors (Tensor : Type) where
  describes : Describes Tensor
  infos : List (OpCacheInfo Tensor)
  breakIndex : Int

def buildConstantTensors (fuel : Nat) (describes : Describes Tensor)
    (infos : List (OpCacheInfo Tensor)) : Option (ConstantTensors Tensor) :=
  let (describes, infos) := middleConsts describes infos
  let (describes, infos, breakIndex) := forceSizes describes 0 (-1) infos
  let turned :=
    if 0 ≤ breakIndex then turnAll fuel describes infos else some (describes, infos)
  turned.map fun (describes, infos) =>
    { describes := infos.foldl markConst describes, infos, breakIndex }

end Passes

/-! ## What the passes keep -/

/-- No constant is lost. -/
def Keeps (before after : Describes Tensor) : Prop :=
  ∀ t, before.isConstant t = true → after.isConstant t = true

theorem Keeps.trans {first second third : Describes Tensor}
    (left : Keeps first second) (right : Keeps second third) : Keeps first third :=
  fun t isConstant => right t (left t isConstant)

/-- The operator of an entry stays, with what it reads and writes. -/
structure SameOp (before after : OpCacheInfo Tensor) : Prop where
  op : after.op = before.op
  inputs : after.inputs = before.inputs
  outputs : after.outputs = before.outputs

theorem SameOp.refl (info : OpCacheInfo Tensor) : SameOp info info := ⟨rfl, rfl, rfl⟩

variable {first second third info info' : OpCacheInfo Tensor}

theorem SameOp.trans
    (left : SameOp first second) (right : SameOp second third) : SameOp first third :=
  ⟨right.op.trans left.op, right.inputs.trans left.inputs,
    right.outputs.trans left.outputs⟩

/-- Entries that stay as they are but for their compute cache. -/
structure SameEntry (before after : OpCacheInfo Tensor) : Prop
    extends SameOp before after where
  type : after.type = before.type

theorem SameEntry.refl (info : OpCacheInfo Tensor) : SameEntry info info := ⟨.refl info, rfl⟩

theorem SameEntry.trans (left : SameEntry first second) (right : SameEntry second third) :
    SameEntry first third :=
  ⟨left.toSameOp.trans right.toSameOp, right.type.trans left.type⟩

theorem sameOps_trans {first second third : List (OpCacheInfo Tensor)}
    (left : List.Forall₂ SameOp first second) (right : List.Forall₂ SameOp second third) :
    List.Forall₂ SameOp first third := by
  induction left generalizing third with
  | nil => exact right
  | cons here _ ih =>
    cases right with
    | cons next rest => exact .cons (here.trans next) (ih rest)

theorem forall_mem_of_forall₂ {R : OpCacheInfo Tensor → OpCacheInfo Tensor → Prop}
    {P Q : OpCacheInfo Tensor → Prop} {infos infos' : List (OpCacheInfo Tensor)}
    (same : List.Forall₂ R infos infos') (step : ∀ a b, R a b → P a → Q b)
    (holds : ∀ a ∈ infos, P a) : ∀ b ∈ infos', Q b := by
  induction same with
  | nil => exact nofun
  | cons here rest ih =>
    rw [forall_mem_cons] at holds ⊢
    exact ⟨step _ _ here holds.1, ih holds.2⟩

/-! ## Closed entries -/

/-- A constant entry has constant outputs, and reads constant contents. -/
structure Settled (describes : Describes Tensor) (info : OpCacheInfo Tensor) : Prop where
  outputs : ∀ t ∈ info.outputs, describes.isConstant t = true
  contents :
    ∀ i t, info.inputs[i]? = some t → opNeedContent info.op i = true → describes.isConstant t = true

def IsSettled (describes : Describes Tensor) (info : OpCacheInfo Tensor) : Prop :=
  info.op.type ≠ .Const → info.type = .CONSTANT → Settled describes info

variable {before after : Describes Tensor}

theorem IsSettled.mono (keeps : Keeps before after) (isSettled : IsSettled before info) :
    IsSettled after info := by
  intro notConst isTyped
  have settled := isSettled notConst isTyped
  exact
    { outputs := fun t isOutput => keeps t (settled.outputs t isOutput)
      contents := fun i t isInput reads => keeps t (settled.contents i t isInput reads) }

/-- An entry with a constant output is typed so. -/
def IsTyped (describes : Describes Tensor) (info : OpCacheInfo Tensor) : Prop :=
  info.op.type ≠ .Const → (∃ t ∈ info.outputs, describes.isConstant t = true) →
    info.type = .CONSTANT

theorem IsSettled.of_sameEntry (keeps : Keeps before after)
    (same : SameEntry info info') (isSettled : IsSettled before info) :
    IsSettled after info' := by
  intro notConst isTyped
  rw [same.op] at notConst
  rw [same.type] at isTyped
  have settled := isSettled.mono keeps notConst isTyped
  constructor
  · rw [same.outputs]
    exact settled.outputs
  · rw [same.inputs, same.op]
    exact settled.contents

/-- The contents that a shape depends on are constant. -/
def ShapeKnown (describes : Describes Tensor) (info : OpCacheInfo Tensor) : Prop :=
  isLegacyWhere info.op = false → ∀ index ∈ needInputContent info.op info.inputs.length, 0 ≤ index →
      ∀ t, info.inputs[index.toNat]? = some t → describes.isConstant t = true

theorem ShapeKnown.of_sameOp (keeps : Keeps before after) (same : SameOp info info')
    (known : ShapeKnown before info) : ShapeKnown after info' := by
  intro notLegacy index isMem isIndex t isInput
  rw [same.op] at notLegacy
  rw [same.op, same.inputs] at isMem
  rw [same.inputs] at isInput
  exact keeps t (known notLegacy index isMem isIndex t isInput)

theorem needInputContent_const {op : Op} (isConst : op.type = .Const) (inputSize : Nat) :
    needInputContent op inputSize = [] := by
  rw [needInputContent]
  simp [isConst, mNeedContentInputIndex]

/-- The entries that may still turn. -/
def openEntries (infos : List (OpCacheInfo Tensor)) : Nat :=
  infos.countP fun info => info.type != .CONSTANT

/-! ## Lists in order -/

/-- Producers stand before consumers, and a tensor has one producer. -/
structure ProducersFirst (infos : List (OpCacheInfo Tensor)) : Prop where
  before {i j : Nat} {a b : OpCacheInfo Tensor} {t : Tensor} :
    infos[i]? = some a → infos[j]? = some b → t ∈ a.outputs → t ∈ b.inputs → i < j
  single {i j : Nat} {a b : OpCacheInfo Tensor} {t : Tensor} :
    infos[i]? = some a → infos[j]? = some b → t ∈ a.outputs → t ∈ b.outputs → i = j

variable {infos infos' : List (OpCacheInfo Tensor)}

theorem exists_sameOp (same : List.Forall₂ SameOp infos infos') {i : Nat} {a' : OpCacheInfo Tensor}
    (isEntry : infos'[i]? = some a') : ∃ a, infos[i]? = some a ∧ SameOp a a' := by
  induction same generalizing i with
  | nil => exact absurd isEntry nofun
  | cons here rest ih =>
    cases i with
    | zero =>
      rw [getElem?_cons_zero, Option.some_inj] at isEntry
      subst isEntry
      exact ⟨_, rfl, here⟩
    | succ i =>
      rw [getElem?_cons_succ] at isEntry ⊢
      exact ih isEntry

theorem ProducersFirst.of_same (order : ProducersFirst infos) (same : List.Forall₂ SameOp infos infos') :
    ProducersFirst infos' := by
  constructor
  · intro i j a' b' t isA isB isOutput isInput
    rcases exists_sameOp same isA with ⟨a, isA, sameA⟩
    rcases exists_sameOp same isB with ⟨b, isB, sameB⟩
    rw [sameA.outputs] at isOutput
    rw [sameB.inputs] at isInput
    exact order.before isA isB isOutput isInput
  · intro i j a' b' t isA isB isOutput isOther
    rcases exists_sameOp same isA with ⟨a, isA, sameA⟩
    rcases exists_sameOp same isB with ⟨b, isB, sameB⟩
    rw [sameA.outputs] at isOutput
    rw [sameB.outputs] at isOther
    exact order.single isA isB isOutput isOther

theorem ProducersFirst.pairwise {infos : List (OpCacheInfo Tensor)} (order : ProducersFirst infos) :
    infos.Pairwise fun a b => ∀ t ∈ a.outputs, t ∉ b.outputs := by
  rw [pairwise_iff_getElem]
  intro i j isI isJ isBefore t isOutput isOther
  have isSame := order.single (getElem?_eq_getElem isI) (getElem?_eq_getElem isJ) isOutput isOther
  omega

/-! ## Marks -/

variable [DecidableEq Tensor]

section Marks

variable (describes : Describes Tensor)

@[simp]
theorem isConstant_setConstant (t u : Tensor) :
    (describes.setConstant t).isConstant u = (u == t || describes.isConstant u) := by
  by_cases isSame : u = t
  · subst isSame
    simp [Describes.setConstant, Describes.isConstant]
  · simp [Describes.setConstant, Describes.isConstant, isSame]

@[simp]
theorem isConstant_setGeometryStage (t u : Tensor) :
    (describes.setGeometryStage t).isConstant u = describes.isConstant u := by
  by_cases isSame : u = t
  · subst isSame
    simp [Describes.setGeometryStage, Describes.isConstant]
  · simp [Describes.setGeometryStage, Describes.isConstant, isSame]

@[simp]
theorem isConstant_setConstants (ts : List Tensor) (u : Tensor) :
    (describes.setConstants ts).isConstant u = (decide (u ∈ ts) || describes.isConstant u) := by
  induction ts generalizing describes with
  | nil => simp [Describes.setConstants]
  | cons t ts ih =>
    have unfolded : describes.setConstants (t :: ts) = (describes.setConstant t).setConstants ts :=
      rfl
    rw [unfolded, ih, isConstant_setConstant, Bool.eq_iff_iff]
    simp only [Bool.or_eq_true, decide_eq_true_eq, beq_iff_eq, mem_cons]
    tauto

@[simp]
theorem isConstant_setGeometryStages (ts : List Tensor) (u : Tensor) :
    (ts.foldl Describes.setGeometryStage describes).isConstant u = describes.isConstant u := by
  induction ts generalizing describes with
  | nil => rfl
  | cons t ts ih =>
    rw [foldl_cons, ih, isConstant_setGeometryStage]

end Marks

/-! ## The first pass -/

/-- An entry before the passes: nothing but a constant operator is constant. -/
def Fresh (describes : Describes Tensor) (info : OpCacheInfo Tensor) : Prop :=
  info.op.type ≠ .Const → info.type ≠ .CONSTANT ∧ ∀ t ∈ info.outputs, describes.isConstant t = false

theorem middleConst_cases (describes : Describes Tensor) (info : OpCacheInfo Tensor) :
    middleConst describes info = (describes, info) ∨
      (∀ i t, info.inputs[i]? = some t → opNeedContent info.op i = true →
          describes.isConstant t = true) ∧
        middleConst describes info =
          (describes.setConstants info.outputs, { info with type := .CONSTANT }) := by
  rw [middleConst]
  split_ifs with isConst reads
  · exact Or.inl rfl
  · refine Or.inr ⟨fun i t isInput needs => ?_, rfl⟩
    have isMem : (t, i) ∈ info.inputs.zipIdx := mk_mem_zipIdx_iff_getElem?.mpr isInput
    have holds := all_eq_true.mp reads _ isMem
    simpa [needs] using holds
  · exact Or.inl rfl

/-- What the first pass leaves. -/
structure FirstPass (describes : Describes Tensor) (infos : List (OpCacheInfo Tensor))
    (after : Describes Tensor × List (OpCacheInfo Tensor)) : Prop where
  keeps : Keeps describes after.1
  same : List.Forall₂ SameOp infos after.2
  marks :
    ∀ t, after.1.isConstant t = true →
      describes.isConstant t = true ∨ ∃ info ∈ infos, t ∈ info.outputs
  settled : ∀ info ∈ after.2, IsSettled after.1 info
  typed : ∀ info ∈ after.2, IsTyped after.1 info

theorem middleConsts_spec (describes : Describes Tensor) (infos : List (OpCacheInfo Tensor))
    (separate : infos.Pairwise fun a b => ∀ t ∈ a.outputs, t ∉ b.outputs)
    (fresh : ∀ info ∈ infos, Fresh describes info) :
    FirstPass describes infos (middleConsts describes infos) := by
  induction infos generalizing describes with
  | nil =>
    exact ⟨fun _ => id, .nil, fun _ => Or.inl, nofun, nofun⟩
  | cons info infos ih =>
    rw [pairwise_cons] at separate
    rw [forall_mem_cons] at fresh
    have isFresh := fresh.1
    rcases middleConst_cases describes info with isSame | ⟨reads, isMarked⟩
    · have rest := ih describes separate.2 fresh.2
      rw [middleConsts, isSame]
      constructor
      · exact rest.keeps
      · exact .cons (.refl info) rest.same
      · intro t isConstant
        rcases rest.marks t isConstant with before | ⟨other, isMem, isOutput⟩
        · exact Or.inl before
        · exact Or.inr ⟨other, mem_cons_of_mem _ isMem, isOutput⟩
      · refine forall_mem_cons.mpr ⟨fun notConst isTyped => ?_, rest.settled⟩
        exact absurd isTyped (isFresh notConst).1
      · refine forall_mem_cons.mpr ⟨?_, rest.typed⟩
        rintro notConst ⟨t, isOutput, isConstant⟩
        rcases rest.marks t isConstant with before | ⟨other, isMem, isShared⟩
        · rw [(isFresh notConst).2 t isOutput] at before
          exact absurd before nofun
        · exact absurd isShared (separate.1 other isMem t isOutput)
    · have freshRest : ∀ other ∈ infos, Fresh (describes.setConstants info.outputs) other := by
        intro other isMem notConst
        refine ⟨(fresh.2 other isMem notConst).1, fun t isOutput => ?_⟩
        rw [isConstant_setConstants, (fresh.2 other isMem notConst).2 t isOutput]
        have notShared : t ∉ info.outputs := fun isShared =>
          separate.1 other isMem t isShared isOutput
        simp [notShared]
      have rest := ih _ separate.2 freshRest
      have keepsHere : Keeps describes (describes.setConstants info.outputs) := by
        intro t isConstant
        simp [isConstant]
      rw [middleConsts, isMarked]
      constructor
      · exact keepsHere.trans rest.keeps
      · exact .cons ⟨rfl, rfl, rfl⟩ rest.same
      · intro t isConstant
        rcases rest.marks t isConstant with before | ⟨other, isMem, isOutput⟩
        · rw [isConstant_setConstants, Bool.or_eq_true, decide_eq_true_eq] at before
          rcases before with isOutput | before
          · exact Or.inr ⟨info, mem_cons_self, isOutput⟩
          · exact Or.inl before
        · exact Or.inr ⟨other, mem_cons_of_mem _ isMem, isOutput⟩
      · refine forall_mem_cons.mpr ⟨fun _ _ => ?_, rest.settled⟩
        constructor
        · intro t isOutput
          refine rest.keeps t ?_
          rw [isConstant_setConstants, decide_eq_true isOutput, Bool.true_or]
        · intro i t isInput needs
          exact rest.keeps t (keepsHere t (reads i t isInput needs))
      · exact forall_mem_cons.mpr ⟨fun _ _ => rfl, rest.typed⟩

/-! ## The second pass -/

variable (forced : Forced Tensor)

theorem forceInput_sameEntry (index : Int) :
    SameEntry forced.info (forceInput forced index).info := by
  rw [forceInput]
  split_ifs with isNegative
  · exact .refl _
  · split
    · exact .refl _
    · simp only
      split_ifs
      · exact ⟨⟨rfl, rfl, rfl⟩, rfl⟩
      · exact .refl _

theorem forceInput_keeps (index : Int) :
    Keeps forced.describes (forceInput forced index).describes := by
  intro u isConstant
  rw [forceInput]
  split_ifs with isNegative
  · exact isConstant
  · split
    · exact isConstant
    · simp only
      split_ifs <;> simp [isConstant]

variable {t : Tensor}

theorem forceInput_isConstant {index : Int} (isIndex : 0 ≤ index)
    (isInput : forced.info.inputs[index.toNat]? = some t) :
    (forceInput forced index).describes.isConstant t = true := by
  rw [forceInput, if_neg (Int.not_lt.mpr isIndex), isInput]
  simp only
  split_ifs with before
  · exact before
  · simp

theorem forceInput_quiet (index : Int) (quiet : (forceInput forced index).isBreak = false) :
    forced.isBreak = false ∧ ∀ u, (forceInput forced index).describes.isConstant u =
        forced.describes.isConstant u := by
  rw [forceInput] at quiet ⊢
  split_ifs at quiet ⊢ with isNegative
  · exact ⟨quiet, fun _ => rfl⟩
  · split at quiet
    · exact ⟨quiet, fun _ => rfl⟩
    · rename_i t isInput
      simp only [Bool.or_eq_false_iff, Bool.not_eq_eq_eq_not, Bool.not_false] at quiet
      refine ⟨quiet.1, fun u => ?_⟩
      simp only [quiet.2, if_true, isConstant_setGeometryStage]

/-- What the second pass does at an operator. -/
structure ForcedFrom (before after : Forced Tensor) : Prop where
  keeps : Keeps before.describes after.describes
  same : SameEntry before.info after.info
  quiet :
    after.isBreak = false → before.isBreak = false ∧
        ∀ u, after.describes.isConstant u = before.describes.isConstant u

theorem foldl_forceInput_spec (indexes : List Int) (forced : Forced Tensor) :
    ForcedFrom forced (indexes.foldl forceInput forced) ∧
      ∀ index ∈ indexes, 0 ≤ index → ∀ t, forced.info.inputs[index.toNat]? = some t →
        (indexes.foldl forceInput forced).describes.isConstant t = true := by
  induction indexes generalizing forced with
  | nil => exact ⟨⟨fun _ => id, .refl _, fun quiet => ⟨quiet, fun _ => rfl⟩⟩, nofun⟩
  | cons index indexes ih =>
    rw [foldl_cons]
    rcases ih (forceInput forced index) with ⟨rest, marks⟩
    have same := forceInput_sameEntry forced index
    refine ⟨⟨?_, same.trans rest.same, fun quiet => ?_⟩, ?_⟩
    · exact (forceInput_keeps forced index).trans rest.keeps
    · have later := rest.quiet quiet
      have here := forceInput_quiet forced index later.1
      exact ⟨here.1, fun u => (later.2 u).trans (here.2 u)⟩
    · refine forall_mem_cons.mpr ⟨fun isIndex t isInput => ?_, ?_⟩
      · exact rest.keeps t (forceInput_isConstant forced isIndex isInput)
      · intro other isMem isIndex t isInput
        rw [← same.inputs] at isInput
        exact marks other isMem isIndex t isInput

theorem forceSize_spec (describes : Describes Tensor) (info : OpCacheInfo Tensor) :
    ForcedFrom ⟨describes, info, false⟩ (forceSize describes info) ∧
      ShapeKnown (forceSize describes info).describes (forceSize describes info).info := by
  have none : ForcedFrom ⟨describes, info, false⟩ ⟨describes, info, false⟩ :=
    ⟨fun _ => id, .refl _, fun quiet => ⟨quiet, fun _ => rfl⟩⟩
  rw [forceSize]
  split_ifs with isConst isLegacy
  · refine ⟨none, fun _ index isMem => ?_⟩
    rw [needInputContent_const isConst] at isMem
    exact absurd isMem not_mem_nil
  · exact ⟨none, fun notLegacy => absurd isLegacy (by rw [notLegacy]; exact nofun)⟩
  · rcases foldl_forceInput_spec (needInputContent info.op info.inputs.length)
      ⟨describes, info, false⟩ with ⟨forced, marks⟩
    refine ⟨forced, fun _ index isMem isIndex t isInput => ?_⟩
    rw [forced.same.op, forced.same.inputs] at isMem
    rw [forced.same.inputs] at isInput
    exact marks index isMem isIndex t isInput

/-- What the second pass leaves. -/
structure SecondPass (describes : Describes Tensor) (infos : List (OpCacheInfo Tensor))
    (breakIndex : Int)
    (after : Describes Tensor × List (OpCacheInfo Tensor) × Int) : Prop where
  keeps : Keeps describes after.1
  same : List.Forall₂ SameEntry infos after.2.1
  known : ∀ info ∈ after.2.1, ShapeKnown after.1 info
  quiet : after.2.2 < 0 → breakIndex < 0 ∧ ∀ t, after.1.isConstant t = describes.isConstant t

theorem forceSizes_spec (describes : Describes Tensor) (infoIndex : Nat)
    (breakIndex : Int) (infos : List (OpCacheInfo Tensor)) :
    SecondPass describes infos breakIndex (forceSizes describes infoIndex breakIndex infos) := by
  induction infos generalizing describes infoIndex breakIndex with
  | nil => exact ⟨fun _ => id, .nil, nofun, fun isNone => ⟨isNone, fun _ => rfl⟩⟩
  | cons info infos ih =>
    rcases forceSize_spec describes info with ⟨forced, known⟩
    have rest := ih (forceSize describes info).describes (infoIndex + 1)
        (if (forceSize describes info).isBreak then (infoIndex : Int) else breakIndex)
    rw [forceSizes]
    constructor
    · exact forced.keeps.trans rest.keeps
    · exact .cons forced.same rest.same
    · exact forall_mem_cons.mpr ⟨known.of_sameOp rest.keeps (.refl _), rest.known⟩
    · intro isNone
      have later := rest.quiet isNone
      cases isBreak : (forceSize describes info).isBreak with
      | true =>
        rw [isBreak, if_pos rfl] at later
        omega
      | false =>
        rw [isBreak, if_neg Bool.false_ne_true] at later
        have here := forced.quiet isBreak
        exact ⟨later.1, fun t => (later.2 t).trans (here.2 t)⟩

/-! ## The fixpoint -/

theorem turnConst_cases (describes : Describes Tensor) (info : OpCacheInfo Tensor) :
    turnConst describes info = (describes, info, false) ∧
        (info.type = .CONSTANT ∨ ∀ t ∈ info.outputs, describes.isConstant t = false) ∨
      info.type ≠ .CONSTANT ∧ turnConst describes info =
          ((describes.setConstants info.outputs).setConstants info.inputs,
            { info with type := .CONSTANT }, true) := by
  rw [turnConst]
  split_ifs with isTyped isOutput
  · exact Or.inl ⟨rfl, Or.inl isTyped⟩
  · exact Or.inr ⟨isTyped, rfl⟩
  · refine Or.inl ⟨rfl, Or.inr fun t isMem => ?_⟩
    rw [Bool.not_eq_true, any_eq_false] at isOutput
    simpa using isOutput t isMem

/-- What passes of the fixpoint leave. -/
structure Turned (describes : Describes Tensor) (infos : List (OpCacheInfo Tensor))
    (after : Describes Tensor × List (OpCacheInfo Tensor)) : Prop where
  keeps : Keeps describes after.1
  same : List.Forall₂ SameOp infos after.2
  settled : (∀ info ∈ infos, IsSettled describes info) → ∀ info ∈ after.2, IsSettled after.1 info

/-- Nothing turns any more. -/
def Stable (describes : Describes Tensor) (infos : List (OpCacheInfo Tensor)) : Prop :=
  ∀ info ∈ infos, info.type = .CONSTANT ∨ ∀ t ∈ info.outputs, describes.isConstant t = false

theorem turnConsts_spec (describes : Describes Tensor) (infos : List (OpCacheInfo Tensor)) :
    Turned describes infos ((turnConsts describes infos).1, (turnConsts describes infos).2.1) ∧
      ((turnConsts describes infos).2.2 = true →
        openEntries (turnConsts describes infos).2.1 < openEntries infos) ∧
      ((turnConsts describes infos).2.2 = false →
        turnConsts describes infos = (describes, infos, false) ∧ Stable describes infos) ∧
      openEntries (turnConsts describes infos).2.1 ≤ openEntries infos := by
  induction infos generalizing describes with
  | nil =>
    exact ⟨⟨fun _ => id, .nil, fun _ => nofun⟩, nofun, fun _ => ⟨rfl, nofun⟩, Nat.le_refl _⟩
  | cons info infos ih =>
    rcases turnConst_cases describes info with ⟨isSame, stays⟩ | ⟨notTyped, turns⟩
    · rcases ih describes with ⟨turned, decreases, stable, atMost⟩
      have counts (rest : List (OpCacheInfo Tensor)) :
          openEntries (info :: rest) = openEntries rest + if info.type != .CONSTANT then 1 else 0 :=
        countP_cons
      rw [turnConsts, isSame]
      simp only [Bool.false_or]
      refine ⟨⟨turned.keeps, .cons (.refl info) turned.same, fun settled => ?_⟩,
        fun hasConst => ?_, fun quiet => ?_, ?_⟩
      · rw [forall_mem_cons] at settled
        exact forall_mem_cons.mpr ⟨settled.1.mono turned.keeps, turned.settled settled.2⟩
      · rw [counts, counts]
        exact Nat.add_lt_add_right (decreases hasConst) _
      · have same := stable quiet
        rw [same.1]
        exact ⟨rfl, forall_mem_cons.mpr ⟨stays, same.2⟩⟩
      · rw [counts, counts]
        exact Nat.add_le_add_right atMost _
    · rcases
        ih ((describes.setConstants info.outputs).setConstants info.inputs) with
        ⟨turned, -, -, atMost⟩
      have keepsHere : Keeps describes
            ((describes.setConstants info.outputs).setConstants info.inputs) := by
        intro t isConstant
        simp [isConstant]
      have fewer (rest : List (OpCacheInfo Tensor)) (isFewer : openEntries rest ≤ openEntries infos) :
          openEntries ({ info with type := .CONSTANT } :: rest) < openEntries (info :: infos) := by
        rw [openEntries, countP_cons, openEntries, countP_cons]
        rw [openEntries, openEntries] at isFewer
        simp only [bne_self_eq_false, Bool.false_eq_true, if_false]
        have isOpen : (info.type != .CONSTANT) = true := bne_iff_ne.mpr notTyped
        rw [isOpen, if_pos rfl]
        omega
      rw [turnConsts, turns]
      simp only [Bool.true_or]
      refine ⟨⟨keepsHere.trans turned.keeps, .cons ⟨rfl, rfl, rfl⟩ turned.same,
        fun settled => ?_⟩, fun _ => fewer _ atMost, nofun, Nat.le_of_lt (fewer _ atMost)⟩
      rw [forall_mem_cons] at settled
      refine forall_mem_cons.mpr ⟨fun _ _ => ?_, ?_⟩
      · constructor
        · intro t isOutput
          exact turned.keeps t (by simp [isOutput])
        · intro i t isInput _
          have isMem : t ∈ info.inputs := mem_of_getElem? isInput
          exact turned.keeps t (by simp [isMem])
      · exact turned.settled fun other isMem => (settled.2 other isMem).mono keepsHere

theorem turnAll_ends (count : Nat) (describes : Describes Tensor)
    (infos : List (OpCacheInfo Tensor)) (atMost : openEntries infos ≤ count) :
    ∃ after, (∀ extra, turnAll (count + 1 + extra) describes infos = some after) ∧
        Turned describes infos after ∧ Stable after.1 after.2 := by
  induction count generalizing describes infos with
  | zero =>
    rcases turnConsts_spec describes infos with ⟨-, decreases, stable, -⟩
    cases isQuiet : (turnConsts describes infos).2.2 with
    | true => exact absurd (decreases isQuiet) (by omega)
    | false =>
      have same := stable isQuiet
      refine ⟨(describes, infos), fun extra => ?_, ?_, same.2⟩
      · rw [show 0 + 1 + extra = extra + 1 by omega, turnAll, same.1]
      · exact ⟨fun _ => id, forall₂_same.mpr fun info _ => .refl info, id⟩
  | succ count ih =>
    rcases turnConsts_spec describes infos with ⟨turned, decreases, stable, -⟩
    cases isQuiet : (turnConsts describes infos).2.2 with
    | true =>
      have fewer := decreases isQuiet
      rcases ih (turnConsts describes infos).1 (turnConsts describes infos).2.1 (by omega) with
        ⟨after, ends, turnedOn, isStable⟩
      refine ⟨after, fun extra => ?_, ?_, isStable⟩
      · rw [show count + 1 + 1 + extra = count + 1 + extra + 1 by omega, turnAll]
        rw [show turnConsts describes infos =
          ((turnConsts describes infos).1, (turnConsts describes infos).2.1, true) by
            rw [← isQuiet]]
        exact ends extra
      · refine ⟨turned.keeps.trans turnedOn.keeps, ?_, fun settled => ?_⟩
        · exact sameOps_trans turned.same turnedOn.same
        · exact turnedOn.settled (turned.settled settled)
    | false =>
      have same := stable isQuiet
      refine ⟨(describes, infos), fun extra => ?_, ?_, same.2⟩
      · rw [show count + 1 + 1 + extra = count + 1 + extra + 1 by omega, turnAll, same.1]
      · exact ⟨fun _ => id, forall₂_same.mpr fun info _ => .refl info, id⟩

/-- A tensor is constant at the end if it was, or a constant operator writes it. -/
theorem isConstant_foldl_markConst (describes : Describes Tensor)
    (infos : List (OpCacheInfo Tensor)) (t : Tensor) :
    (infos.foldl markConst describes).isConstant t = true ↔ describes.isConstant t = true ∨
        ∃ info ∈ infos, info.type = .CONSTANT ∧ t ∈ info.outputs := by
  induction infos generalizing describes with
  | nil => simp
  | cons info infos ih =>
    rw [foldl_cons, ih, exists_mem_cons_iff, markConst]
    split_ifs with isTyped
    · rw [isConstant_setConstants, isConstant_setGeometryStages, Bool.or_eq_true, decide_eq_true_eq]
      tauto
    · tauto

/-- What is left behind. -/
structure Propagated (infos : List (OpCacheInfo Tensor)) (result : ConstantTensors Tensor) :
    Prop where
  same : List.Forall₂ SameOp infos result.infos
  known : ∀ info ∈ result.infos, ShapeKnown result.describes info
  typed :
    ∀ info ∈ result.infos, info.op.type ≠ .Const →
      (∃ t ∈ info.outputs, result.describes.isConstant t = true) →
        info.type = .CONSTANT ∧ Settled result.describes info
  -- the constants can be evaluated in the order of the list
  inOrder :
    ∀ (j : Nat) (b : OpCacheInfo Tensor), result.infos[j]? = some b → b.type = .CONSTANT →
        ∀ n t, b.inputs[n]? = some t → opNeedContent b.op n = true →
          result.describes.isConstant t = true ∧
            ∀ (i : Nat) (a : OpCacheInfo Tensor), result.infos[i]? = some a →
              t ∈ a.outputs → i < j ∧ (a.op.type = .Const ∨ a.type = .CONSTANT)

theorem propagated_of_typed {describes : Describes Tensor} (order : ProducersFirst infos)
    (same : List.Forall₂ SameOp infos infos') (known : ∀ info ∈ infos', ShapeKnown describes info)
    (settled : ∀ info ∈ infos', IsSettled describes info)
    (typed : ∀ info ∈ infos', IsTyped describes info) (breakIndex : Int) :
    Propagated infos ⟨infos'.foldl markConst describes, infos', breakIndex⟩ := by
  have order' := order.of_same same
  have keeps : Keeps describes (infos'.foldl markConst describes) := fun t isConstant =>
    (isConstant_foldl_markConst describes infos' t).mpr (Or.inl isConstant)
  have typedAfter : ∀ info ∈ infos', IsTyped (infos'.foldl markConst describes) info := by
    rintro info isMem notConst ⟨t, isOutput, isConstant⟩
    rcases (isConstant_foldl_markConst describes infos' t).mp isConstant with
      before | ⟨other, isOther, isTyped, isShared⟩
    · exact typed info isMem notConst ⟨t, isOutput, before⟩
    · rcases mem_iff_getElem?.mp isMem with ⟨i, isI⟩
      rcases mem_iff_getElem?.mp isOther with ⟨j, isJ⟩
      obtain rfl := order'.single isI isJ isOutput isShared
      rw [isI, Option.some_inj] at isJ
      rw [isJ]
      exact isTyped
  have settledAfter : ∀ info ∈ infos', IsSettled (infos'.foldl markConst describes) info :=
    fun info isMem => (settled info isMem).mono keeps
  constructor
  · exact same
  · exact fun info isMem => (known info isMem).of_sameOp keeps (.refl info)
  · intro info isMem notConst isOutput
    have isTyped := typedAfter info isMem notConst isOutput
    exact ⟨isTyped, settledAfter info isMem notConst isTyped⟩
  · intro j b isB isTyped n t isInput needs
    have notConst : b.op.type ≠ .Const := by
      intro isConst
      rw [opNeedContent, isConst] at needs
      exact absurd needs nofun
    have isConstant :=
      (settledAfter b (mem_of_getElem? isB) notConst isTyped).contents n t isInput needs
    refine ⟨isConstant, fun i a isA isOutput => ?_⟩
    refine ⟨order'.before isA isB isOutput (mem_of_getElem? isInput), ?_⟩
    by_cases isConst : a.op.type = .Const
    · exact Or.inl isConst
    · exact Or.inr (typedAfter a (mem_of_getElem? isA) isConst ⟨t, isOutput, isConstant⟩)

/-- The second operator reads its shape from the result of the first. -/
def reshaped : List (OpCacheInfo Nat) :=
  [⟨⟨.other 0, .other⟩, [0], [1], .SEPARATE, []⟩, ⟨⟨.Reshape, .other⟩, [2, 1], [3], .SEPARATE, []⟩]

theorem fresh_reshaped : ∀ info ∈ reshaped, Fresh (fun _ => ⟨.NORMAL, true, false⟩) info := by
  have isFresh :
      ∀ info ∈ reshaped, info.type ≠ .CONSTANT ∧ ∀ t ∈ info.outputs,
            Describes.isConstant (fun _ => ⟨.NORMAL, true, false⟩) t = false := by
    decide
  exact fun info isMem _ => isFresh info isMem

theorem producersFirst_reshaped : ProducersFirst reshaped := by
  constructor
  all_goals
    intro i j a b t isA isB isOutput isOther
    rcases i with _ | _ | i <;> rcases j with _ | _ | j <;>
      simp only [reshaped, getElem?_cons_zero, getElem?_cons_succ,
        getElem?_nil, Option.some_inj, reduceCtorEq] at isA isB <;>
      subst isA isB <;> simp_all

/-- An operator of a net, with tensors in place of their indexes. -/
structure NetOp (Tensor : Type) where
  op : Op
  inputIndexes : List Tensor
  outputIndexes : List Tensor

def needComputeOp (op : Op) : Bool :=
  op.type != .Input && op.type != .Const && op.type != .TrainableParam

omit [DecidableEq Tensor] in
def initPipelineInfosFromOps (ops : List (NetOp Tensor)) : List (OpCacheInfo Tensor) :=
  (ops.filter fun op => needComputeOp op.op).map fun op =>
    { op := op.op
      inputs := op.inputIndexes
      outputs := op.outputIndexes
      type := .SEPARATE
      mNeedCompareContent := [] }

/-- A constant that something else writes is trained. -/
def setTrainable (tensors : Tensor → Option Describe) (index : Tensor) : Tensor → Option Describe :=
  match tensors index with
  | none => tensors
  | some describe =>
    if describe.usage = .CONSTANT then
      update tensors index (some { describe with usage := .TRAINABLE })
    else
      tensors

/-- The constants after one operator; there are no other tensors yet. -/
def initConstTensor (tensors : Tensor → Option Describe) (op : NetOp Tensor) :
    Tensor → Option Describe :=
  if op.op.type = .Const ∨ op.op.type = .TrainableParam then
    match op.outputIndexes with
    | [] => tensors
    | index :: _ => update tensors index (some ⟨.CONSTANT, false, false⟩)
  else
    op.outputIndexes.foldl setTrainable tensors

/-- All tensors but the constants are made. -/
def initTensors (ops : List (NetOp Tensor)) : Describes Tensor :=
  fun index => (ops.foldl initConstTensor (fun _ => none) index).getD ⟨.NORMAL, true, false⟩

/-- A constant that is there. -/
def HasConstant (tensors : Tensor → Option Describe) (t : Tensor) : Prop :=
  ∃ describe, tensors t = some describe ∧ describe.usage = .CONSTANT

variable {tensors : Tensor → Option Describe}

theorem HasConstant.of_setTrainable
    {index : Tensor} (has : HasConstant (setTrainable tensors index) t) :
    HasConstant tensors t := by
  rw [setTrainable] at has
  split at has
  · exact has
  · split_ifs at has
    · rcases has with ⟨describe, isThere, isConstant⟩
      by_cases isSame : t = index
      · subst isSame
        rw [update_self, Option.some_inj] at isThere
        subst isThere
        exact absurd isConstant nofun
      · rw [update_of_ne isSame] at isThere
        exact ⟨describe, isThere, isConstant⟩
    · exact has

theorem HasConstant.of_setTrainables (indexes : List Tensor)
    (has : HasConstant (indexes.foldl setTrainable tensors) t) : HasConstant tensors t := by
  induction indexes generalizing tensors with
  | nil => exact has
  | cons index indexes ih => exact (ih has).of_setTrainable

theorem HasConstant.exists_op {ops : List (NetOp Tensor)}
    (has : HasConstant (ops.foldl initConstTensor tensors) t) :
    HasConstant tensors t ∨ ∃ op ∈ ops, needComputeOp op.op = false ∧ t ∈ op.outputIndexes := by
  induction ops generalizing tensors with
  | nil => exact Or.inl has
  | cons op ops ih =>
    rcases ih has with here | ⟨other, isMem, isConst, isOutput⟩
    · rw [initConstTensor] at here
      split_ifs at here with isConst
      · split at here
        · exact Or.inl here
        · rename_i index indexes isIndexes
          by_cases isSame : t = index
          · refine Or.inr ⟨op, mem_cons_self, ?_, ?_⟩
            · rcases isConst with isConst | isConst <;> simp [needComputeOp, isConst]
            · rw [isIndexes, isSame]
              exact mem_cons_self
          · rcases here with ⟨describe, isThere, isConstant⟩
            rw [update_of_ne isSame] at isThere
            exact Or.inl ⟨describe, isThere, isConstant⟩
      · exact Or.inl (here.of_setTrainables op.outputIndexes)
    · exact Or.inr ⟨other, mem_cons_of_mem _ isMem, isConst, isOutput⟩

/-- Nothing that is computed is constant yet. -/
theorem fresh_initPipelineInfosFromOps (ops : List (NetOp Tensor)) (single :
      ∀ a ∈ ops, ∀ b ∈ ops, ∀ t ∈ a.outputIndexes, t ∈ b.outputIndexes → a = b) :
    ∀ info ∈ initPipelineInfosFromOps ops, Fresh (initTensors ops) info := by
  intro info isMem notConst
  rcases mem_map.mp isMem with ⟨op, isOp, rfl⟩
  rw [mem_filter] at isOp
  refine ⟨nofun, fun t isOutput => Bool.eq_false_iff.mpr fun isConstant => ?_⟩
  have has : HasConstant (ops.foldl initConstTensor fun _ => none) t := by
    rw [Describes.isConstant, initTensors, beq_iff_eq] at isConstant
    cases isThere : ops.foldl initConstTensor (fun _ => none) t with
    | none =>
      rw [isThere] at isConstant
      exact absurd isConstant nofun
    | some describe =>
      rw [isThere] at isConstant
      exact ⟨describe, isThere, isConstant⟩
  rcases has.exists_op with ⟨_, isThere, _⟩ | ⟨other, isOther, isConst, isShared⟩
  · exact absurd isThere nofun
  · obtain rfl := single op isOp.1 other isOther t isOutput isShared
    rw [isOp.2] at isConst
    exact absurd isConst nofun

theorem fresh_initPipelineInfosFromOps_reshape :
    let ops : List (NetOp Nat) := [⟨⟨.Const, .other⟩, [], [0]⟩,
      ⟨⟨.Reshape, .other⟩, [1, 0], [2]⟩]
    ∀ info ∈ initPipelineInfosFromOps ops, Fresh (initTensors ops) info :=
  fresh_initPipelineInfosFromOps _ (by simp)

end Mnn.Geometry.GeometryComputerUtils
