import Mnn.Core.Macro
import Mnn.Foundation.BitFields
import Mnn.Foundation.DepthFirst

/-!
# Saving and loading of expressions

An expression has inputs that are outputs of other expressions, or absent.  `save` numbers
the outputs of all that is needed in an order that it can be computed in, and `load` makes
the expressions again in this order.  Vectors of a blob are their bytes.
-/

namespace Mnn.Express

open Mnn.Core Mnn.Foundation BitFields

/-! ## Tensors -/

/-- The types for which constants are saved. -/
inductive ElementType
  | float32
  | int32
  | int8
  | uint8
  | bfloat16
  deriving DecidableEq

def ElementType.bytes : ElementType → Nat
  | .float32 => 4
  | .int32 => 4
  | .int8 => 1
  | .uint8 => 1
  | .bfloat16 => 2

inductive Dimensionformat
  | NHWC
  | NC4HW4
  | NCHW
  deriving DecidableEq

/-- The types that `save` writes. -/
inductive DataType
  | DT_INVALID
  | DT_FLOAT
  | DT_INT32
  | DT_UINT8
  | DT_INT8
  | DT_BFLOAT16
  deriving DecidableEq

inductive DataFormat
  | NCHW
  | NHWC
  | NC4HW4
  | UNKNOWN
  deriving DecidableEq

def convertFormat : Dimensionformat → DataFormat
  | .NCHW => .NCHW
  | .NHWC => .NHWC
  | .NC4HW4 => .NC4HW4

def revertFormat : DataFormat → Dimensionformat
  | .NCHW => .NCHW
  | .NHWC => .NHWC
  | .NC4HW4 => .NC4HW4
  | .UNKNOWN => .NCHW

/-- There is no data type for `bfloat16` here. -/
def convertDataType : ElementType → DataType
  | .float32 => .DT_FLOAT
  | .uint8 => .DT_UINT8
  | .int8 => .DT_INT8
  | .int32 => .DT_INT32
  | .bfloat16 => .DT_INVALID

def revertDataType : DataType → ElementType
  | .DT_FLOAT => .float32
  | .DT_INT32 => .int32
  | .DT_UINT8 => .uint8
  | .DT_INT8 => .int8
  | .DT_BFLOAT16 => .bfloat16
  | .DT_INVALID => .float32

structure Info where
  order : Dimensionformat
  dim : List Int
  type : ElementType
  deriving DecidableEq

/-- The elements of the dimensions from the `i`-th on. -/
def sizeFrom (order : Dimensionformat) : Nat → List Int → Nat
  | _, [] => 1
  | i, dim :: dims =>
    if dim ≤ 0 then
      0
    else if order = .NC4HW4 ∧ i = 1 then
      upDiv dim.toNat 4 * 4 * sizeFrom order (i + 1) dims
    else
      dim.toNat * sizeFrom order (i + 1) dims

/-- `syncSize`. -/
def Info.size (info : Info) : Nat := sizeFrom info.order 0 info.dim

/-- The bytes of the content. -/
def Info.bytes (info : Info) : Nat := info.size * info.type.bytes

structure Blob where
  dims : List Int
  dataFormat : DataFormat
  dataType : DataType
  uint8s : List Byte
  int8s : List Byte
  int32s : List Byte
  float32s : List Byte
  deriving DecidableEq

/-! ## Expressions -/

/-- The names of op types, and which ops are constants with external weights. -/
class OpKind (Param : Type) where
  enumNameOpType : Param → String
  isConst : Param → Bool

/-- An expression has an op, with its name, or it is an input or a constant. -/
inductive Source (Param : Type)
  | op (param : Param) (name : String)
  | input (info : Info)
  | constant (trainable : Bool) (info : Info) (content : List Byte)
  deriving DecidableEq

/-- An input is an output of an expression, or a null pointer. -/
structure Expr (Param : Type) where
  source : Source Param
  inputs : List (Option (Nat × Nat))
  outputNames : List String
  name : String
  deriving DecidableEq

variable {Param : Type}

namespace Expr

def outputSize (expr : Expr Param) : Nat := expr.outputNames.length

/-- The expressions whose outputs are inputs. -/
def producers (expr : Expr Param) : List Nat := expr.inputs.filterMap (Option.map Prod.fst)

def isConst [OpKind Param] (expr : Expr Param) : Bool :=
  match expr.source with
  | .op param _ => OpKind.isConst param
  | .input _ => false
  | .constant trainable _ _ => !trainable

end Expr

/-- The inputs of an expression of a list. -/
def producersOf (exprs : List (Expr Param)) (id : Nat) : List Nat :=
  ((exprs[id]?).map Expr.producers).getD []

/-- An acyclic graph: inputs are outputs that are there, and constants take no inputs. -/
structure Graph (Param : Type) [OpKind Param] where
  exprs : List (Expr Param)
  inside : ∀ expr ∈ exprs, ∀ id index, some (id, index) ∈ expr.inputs →
    ∃ producer, exprs[id]? = some producer ∧ index < producer.outputSize
  acyclic : WellFounded fun input id => input ∈ producersOf exprs id
  constants : ∀ expr ∈ exprs, expr.isConst → expr.inputs = []
  plain : ∀ expr ∈ exprs, match expr.source with
    | .op _ _ => True
    | .input _ => expr.inputs = [] ∧ expr.outputSize = 1
    | .constant _ info content =>
      expr.inputs = [] ∧ expr.outputSize = 1 ∧ content.length = info.bytes

section Order

variable [OpKind Param] (exprs : List (Expr Param))

/-- The first loop: constants are emitted, the others are put on the stack. -/
def startOrder : List (Option (Nat × Nat)) → List Nat × List Nat → List Nat × List Nat
  | [], state => state
  | none :: outputs, state => startOrder outputs state
  | some output :: outputs, (stack, sequence) =>
    if ((exprs[output.1]?).map Expr.isConst).getD false && output.1 ∉ sequence then
      startOrder outputs (stack, sequence ++ [output.1])
    else
      startOrder outputs (output.1 :: stack, sequence)

/-- The second loop takes one turn for each entry of the stack and two for each expression
at most. -/
def getExecuteOrder (outputs : List (Option (Nat × Nat))) : List Nat :=
  (DepthFirst.turns (producersOf exprs) (outputs.length + 2 * exprs.length)
    (startOrder exprs outputs ([], []))).2

end Order

/-! ## Saving -/

/-- The union `main`, and which type of op it is for. -/
inductive OpMain (Param : Type)
  | other (param : Param)
  | Input (dims : List Int) (dtype : DataType) (dformat : DataFormat)
  | Blob (trainable : Bool) (blob : Blob)
  deriving DecidableEq

structure OpT (Param : Type) where
  name : String
  main : OpMain Param
  inputIndexes : List Int
  outputIndexes : List Int
  deriving DecidableEq

structure NetT (Param : Type) where
  oplists : List (OpT Param)
  tensorName : List String
  deriving DecidableEq

def OpMain.enumNameOpType [OpKind Param] : OpMain Param → String
  | .other param => OpKind.enumNameOpType param
  | .Input .. => "Input"
  | .Blob trainable _ => if trainable then "TrainableParam" else "Const"

def saveBlob (info : Info) (content : List Byte) : Blob :=
  let dataFormat := convertFormat info.order
  let bytes := content.take info.bytes
  match info.type with
  | .float32 => ⟨info.dim, dataFormat, .DT_FLOAT, [], [], [], bytes⟩
  | .int32 => ⟨info.dim, dataFormat, .DT_INT32, [], [], bytes, []⟩
  | .int8 => ⟨info.dim, dataFormat, .DT_INT8, [], bytes, [], []⟩
  | .uint8 => ⟨info.dim, dataFormat, .DT_UINT8, bytes, [], [], []⟩
  | .bfloat16 => ⟨info.dim, dataFormat, .DT_BFLOAT16, bytes, [], [], []⟩

/-- The op of a source, with its own name. -/
def saveMain : Source Param → OpMain Param × String
  | .op param name => (.other param, name)
  | .input info =>
    (.Input info.dim (convertDataType info.type) (convertFormat info.order), "")
  | .constant trainable info content => (.Blob trainable (saveBlob info content), "")

section Save

variable (exprs : List (Expr Param)) (order : List Nat)

def outputSizeOf (id : Nat) : Nat := ((exprs[id]?).map Expr.outputSize).getD 0

/-- `varIndexInfo`: how many outputs there are before an expression. -/
def varIndexInfo (id : Nat) : Nat :=
  if id ∈ order then ((order.take (order.idxOf id)).map (outputSizeOf exprs)).sum else 0

/-- The number of an input, or `-1`. -/
def inputIndex : Option (Nat × Nat) → Int
  | none => -1
  | some input => (varIndexInfo exprs order input.1 + input.2 : Nat)

variable [OpKind Param]

/-- The name of the expression, else that of the op, else one with its place. -/
def opName (place : Nat) (expr : Expr Param) : String :=
  let name := if expr.name ≠ "" then expr.name else (saveMain expr.source).2
  if name = "" then
    (saveMain expr.source).1.enumNameOpType ++ toString (place + 1)
  else
    name

def saveOp (place id : Nat) (expr : Expr Param) : OpT Param where
  name := opName place expr
  main := (saveMain expr.source).1
  inputIndexes := expr.inputs.map (inputIndex exprs order)
  outputIndexes := (List.range expr.outputSize).map fun v =>
    ((varIndexInfo exprs order id + v : Nat) : Int)

/-- The name of an output, or one that is made from the name of the op. -/
def tensorNameOf (place : Nat) (expr : Expr Param) (v : Nat) : String :=
  let name := expr.outputNames.getD v ""
  if name = "" then
    if v = 0 then opName place expr else opName place expr ++ toString v
  else
    name

def save (outputs : List (Option (Nat × Nat))) : NetT Param :=
  let order := getExecuteOrder exprs outputs
  let ops := order.zipIdx.filterMap fun entry =>
    (exprs[entry.1]?).map fun expr => (entry, expr)
  { oplists := ops.map fun op => saveOp exprs order op.1.2 op.1.1 op.2
    tensorName := ops.flatMap fun op =>
      (List.range op.2.outputSize).map (tensorNameOf op.1.2 op.2) }

end Save

/-! ## Loading -/

/-- The vector for the data type, or a null pointer. -/
def Blob.pointer (blob : Blob) : Option (List Byte) :=
  let bytes := match blob.dataType with
    | .DT_INT8 => blob.int8s
    | .DT_INT32 => blob.int32s
    | .DT_UINT8 => blob.uint8s
    | .DT_FLOAT => blob.float32s
    | .DT_BFLOAT16 => blob.uint8s
    | .DT_INVALID => []
  if bytes.isEmpty then none else some bytes

/-- `Expr::create`, without the outputs' names. -/
def createExpr (op : OpT Param) (inputs : List (Option (Nat × Nat))) : Expr Param :=
  match op.main with
  | .other param =>
    ⟨.op param op.name, inputs, List.replicate op.outputIndexes.length "", op.name⟩
  | .Input dims dtype dformat =>
    let dims := match dims with
      | dim :: rest => if dim = -1 then 1 :: rest else dim :: rest
      | [] => []
    ⟨.input ⟨revertFormat dformat, dims, revertDataType dtype⟩, [], [""], op.name⟩
  | .Blob trainable blob =>
    let info : Info := ⟨revertFormat blob.dataFormat, blob.dims, revertDataType blob.dataType⟩
    let content := (blob.pointer.map (List.take info.bytes)).getD []
    ⟨.constant (trainable && blob.pointer.isSome) info content, [], [""], op.name⟩

/-- The expressions that are made, and the variables by the numbers of their tensors. -/
structure LoadState (Param : Type) where
  exprs : List (Expr Param)
  variableMap : List (Int × (Nat × Nat))
  loadedVars : List (Nat × Nat)

/-- The inputs up to the first that is not found. -/
def findInputs (variableMap : List (Int × (Nat × Nat))) : List Int → List (Option (Nat × Nat))
  | [] => []
  | inputIndex :: inputIndexes =>
    match variableMap.lookup inputIndex with
    | none => []
    | some input => some input :: findInputs variableMap inputIndexes

/-- `setName` of a variable. -/
def Expr.setOutputName (expr : Expr Param) (index : Nat) (name : String) : Expr Param :=
  { expr with
    outputNames := expr.outputNames.set index name
    name := if expr.name = "" then name else expr.name }

/-- The variables of the outputs that have none yet. -/
def loadOutputs (tensorName : List String) (id : Nat) :
    List (Int × Nat) → Expr Param → List (Int × (Nat × Nat)) → List (Nat × Nat) →
      Expr Param × List (Int × (Nat × Nat)) × List (Nat × Nat)
  | [], expr, variableMap, loadedVars => (expr, variableMap, loadedVars)
  | (outputIndex, index) :: outputs, expr, variableMap, loadedVars =>
    if (variableMap.lookup outputIndex).isSome then
      loadOutputs tensorName id outputs expr variableMap loadedVars
    else
      let expr := match tensorName[outputIndex.toNat]? with
        | some name => expr.setOutputName index name
        | none => expr
      loadOutputs tensorName id outputs expr ((outputIndex, (id, index)) :: variableMap)
        (loadedVars ++ [(id, index)])

def loadOp (tensorName : List String) (state : LoadState Param) (op : OpT Param) :
    LoadState Param :=
  let inputs := findInputs state.variableMap op.inputIndexes
  let (expr, variableMap, loadedVars) :=
    loadOutputs tensorName state.exprs.length op.outputIndexes.zipIdx (createExpr op inputs)
      state.variableMap state.loadedVars
  ⟨state.exprs ++ [expr], variableMap, loadedVars⟩

def load (source : NetT Param) : LoadState Param :=
  source.oplists.foldl (loadOp source.tensorName) ⟨[], [], []⟩

end Mnn.Express
