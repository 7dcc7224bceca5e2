import Mnn.Foundation.RawImages

/-!
# Parameters in an external file

The converter moves the parameters of an op behind each other into a file and leaves a
record with the place of the first and the sizes of all.  Another switch, over the types
of the ops, takes them back.  Floats are their bits.
-/

namespace Mnn.Converter

open Mnn.Foundation BitFields RawImages

/-! ## Ops -/

inductive OpType
  | IndexedLinear
  | Convolution
  | Deconvolution
  | ConvolutionDepthwise
  | Scale
  | LayerNorm
  | TrainableParam
  | Const
  | other (type : Nat)
  deriving DecidableEq

inductive DataType
  | DT_FLOAT
  | DT_BFLOAT16
  | DT_INT32
  | DT_UINT8
  | DT_INT8
  | other (type : Nat)
  deriving DecidableEq

inductive ScaleStorageType
  | FP32
  | FP16
  deriving DecidableEq

structure IDSTQuan where
  buffer : List (BitVec 8)
  alpha : List (BitVec 32)
  alphaFp16 : List (BitVec 16)
  index : List (BitVec 32)
  scaleStorage : ScaleStorageType
  deriving DecidableEq

/-- The record `external` is a place with the sizes of what follows there. -/
structure Convolution2D where
  weight : List (BitVec 32)
  bias : List (BitVec 32)
  quanParameter : Option IDSTQuan
  external : List Nat
  deriving DecidableEq

structure Scale where
  scaleData : List (BitVec 32)
  biasData : List (BitVec 32)
  external : List Nat
  deriving DecidableEq

structure LayerNorm where
  gamma : List (BitVec 32)
  beta : List (BitVec 32)
  external : List Nat
  deriving DecidableEq

structure Blob where
  dims : List Int
  dataType : DataType
  uint8s : List (BitVec 8)
  int8s : List (BitVec 8)
  int32s : List (BitVec 32)
  float32s : List (BitVec 32)
  external : List Nat
  deriving DecidableEq

/-- An expert may be a null pointer. -/
structure IndexedLinearParam where
  linears : List (Option Convolution2D)
  deriving DecidableEq

/-- The union `main`, with its type. -/
inductive OpParameter
  | IndexedLinearParam (param : IndexedLinearParam)
  | Convolution2D (param : Convolution2D)
  | Scale (param : Scale)
  | LayerNorm (param : LayerNorm)
  | Blob (param : Blob)
  | other (type : Nat)
  deriving DecidableEq

structure Op where
  type : OpType
  main : OpParameter
  inputIndexes : List Int
  externalPath : String
  deriving DecidableEq

/-! ## Storing -/

/-- The file that is written, and the offset that is counted next to it. -/
structure Output where
  fs : List Byte
  offset : Nat
  deriving DecidableEq

variable {T : Type} [Plain T]

/-- `storeWeight`: the vector is empty then, and the record has its size. -/
def storeWeight (out : Output) (weight : List T) (external : List Nat) (check : Bool) :
    Output × List T × List Nat :=
  if weight.isEmpty && check then
    (out, weight, external)
  else
    let external := if external.isEmpty then external ++ [out.offset] else external
    let size := weight.length * Plain.width T
    (⟨out.fs ++ image weight, out.offset + size⟩, [], external ++ [size])

/-- The case of `Convolution2D`. -/
def storeConvolution2D (out : Output) (param : Convolution2D) : Output × Convolution2D :=
  match param.quanParameter with
  | some quan =>
    let (out, buffer, external) := storeWeight out quan.buffer param.external false
    match quan.scaleStorage with
    | .FP16 =>
      let (out, alphaFp16, external) := storeWeight out quan.alphaFp16 external false
      let (out, bias, external) := storeWeight out param.bias external false
      let (out, index, external) := storeWeight out quan.index external false
      (out, { param with
        bias := bias, external := external,
        quanParameter := some { quan with
          buffer := buffer, alphaFp16 := alphaFp16, index := index } })
    | .FP32 =>
      let (out, alpha, external) := storeWeight out quan.alpha external false
      let (out, bias, external) := storeWeight out param.bias external false
      let (out, index, external) := storeWeight out quan.index external false
      (out, { param with
        bias := bias, external := external,
        quanParameter := some { quan with
          buffer := buffer, alpha := alpha, index := index } })
  | none =>
    let (out, weight, external) := storeWeight out param.weight param.external true
    let (out, bias, external) := storeWeight out param.bias external true
    (out, { param with weight := weight, bias := bias, external := external })

/-- An expert that is quantised is stored like a convolution with one input. -/
def storeExpert (out : Output) (expert : Convolution2D) : Output × Convolution2D :=
  match expert.quanParameter with
  | none =>
    let (out, weight, external) := storeWeight out expert.weight expert.external false
    let (out, bias, external) := storeWeight out expert.bias external false
    (out, { expert with weight := weight, bias := bias, external := external })
  | some _ => storeConvolution2D out expert

/-- `forEachIndexedLinearWeight`, which leaves out null pointers. -/
def storeExperts (out : Output) : List (Option Convolution2D) → Output × List (Option Convolution2D)
  | [] => (out, [])
  | none :: linears =>
    let (out, stored) := storeExperts out linears
    (out, none :: stored)
  | some expert :: linears =>
    let (out, expert) := storeExpert out expert
    let (out, stored) := storeExperts out linears
    (out, some expert :: stored)

/-- The number of elements, as a `size_t`. -/
def Blob.totalSize (param : Blob) : Nat :=
  param.dims.foldl (fun totalSize dim => totalSize * (dim % 2 ^ 64).toNat % 2 ^ 64) 1

def storeBlob (out : Output) (param : Blob) : Output × Blob :=
  if param.totalSize ≤ 1024 then
    (out, param)
  else
    match param.dataType with
    | .DT_FLOAT =>
      let (out, float32s, external) := storeWeight out param.float32s param.external true
      (out, { param with float32s := float32s, external := external })
    | .DT_BFLOAT16 =>
      let (out, uint8s, external) := storeWeight out param.uint8s param.external true
      (out, { param with uint8s := uint8s, external := external })
    | .DT_INT32 =>
      let (out, int32s, external) := storeWeight out param.int32s param.external true
      (out, { param with int32s := int32s, external := external })
    | .DT_UINT8 =>
      let (out, uint8s, external) := storeWeight out param.uint8s param.external true
      (out, { param with uint8s := uint8s, external := external })
    | .DT_INT8 =>
      let (out, int8s, external) := storeWeight out param.int8s param.external true
      (out, { param with int8s := int8s, external := external })
    | .other _ => (out, param)

def storeScale (out : Output) (param : Scale) : Output × Scale :=
  let (out, scaleData, external) := storeWeight out param.scaleData param.external true
  if param.biasData.isEmpty then
    (out, { param with scaleData := scaleData, external := external })
  else
    let (out, biasData, external) := storeWeight out param.biasData external true
    (out, { param with scaleData := scaleData, biasData := biasData, external := external })

def storeLayerNorm (out : Output) (param : LayerNorm) : Output × LayerNorm :=
  if !param.gamma.isEmpty && !param.beta.isEmpty then
    let (out, gamma, external) := storeWeight out param.gamma param.external true
    let (out, beta, external) := storeWeight out param.beta external true
    (out, { param with gamma := gamma, beta := beta, external := external })
  else
    (out, param)

def removeAndStoreParam (out : Output) (op : Op) : Output × Op :=
  if op.externalPath ≠ "" then
    (out, op)
  else
    match op.main with
    | .IndexedLinearParam param =>
      let (out, linears) := storeExperts out param.linears
      (out, { op with main := .IndexedLinearParam ⟨linears⟩ })
    | .Convolution2D param =>
      if 1 < op.inputIndexes.length then
        (out, op)
      else
        let (out, param) := storeConvolution2D out param
        (out, { op with main := .Convolution2D param })
    | .Scale param =>
      let (out, param) := storeScale out param
      (out, { op with main := .Scale param })
    | .LayerNorm param =>
      let (out, param) := storeLayerNorm out param
      (out, { op with main := .LayerNorm param })
    | .Blob param =>
      let (out, param) := storeBlob out param
      (out, { op with main := .Blob param })
    | .other _ => (out, op)

def storeOps (out : Output) : List Op → Output × List Op
  | [] => (out, [])
  | op :: ops =>
    let (out, op) := removeAndStoreParam out op
    let (out, ops) := storeOps out ops
    (out, op :: ops)

/-- The ops, and those of each subgraph. -/
structure Net where
  oplists : List Op
  subgraphs : List (List Op)
  deriving DecidableEq

def storeSubgraphs (out : Output) : List (List Op) → Output × List (List Op)
  | [] => (out, [])
  | nodes :: subgraphs =>
    let (out, nodes) := storeOps out nodes
    let (out, subgraphs) := storeSubgraphs out subgraphs
    (out, nodes :: subgraphs)

def saveExternalData (netT : Net) : List Byte × Net :=
  let (out, oplists) := storeOps ⟨[], 0⟩ netT.oplists
  let (out, subgraphs) := storeSubgraphs out netT.subgraphs
  (out.fs, ⟨oplists, subgraphs⟩)

/-! ## Loading -/

/-- A file that is open, with the place of the next byte. -/
structure FileLoader where
  contents : List Byte
  place : Nat

/-- `read`: the bytes that are there, and whether they are all. -/
def FileLoader.read (fl : FileLoader) (size : Nat) : List Byte × Bool × FileLoader :=
  let bytes := (fl.contents.drop fl.place).take size
  (bytes, decide (bytes.length = size), { fl with place := fl.place + bytes.length })

/-- `resize`, with zeros at the end. -/
def resize [Zero T] (data : List T) (count : Nat) : List T :=
  data.take count ++ List.replicate (count - data.length) 0

/-- Bytes over the beginning of a vector. -/
def overwrite (data : List T) (bytes : List Byte) : List T :=
  ofImages T data.length (bytes ++ (image data).drop bytes.length)

def loadExternalData [Zero T] (fl : FileLoader) (data : List T) (size : Nat) :
    FileLoader × List T :=
  if size = 0 then
    (fl, data)
  else
    let data := resize data (size / Plain.width T)
    let (bytes, _, fl) := fl.read size
    (fl, overwrite data bytes)

/-- `loaded && loadIndexedExternalData(...)`. -/
def loadIndexedExternalData [Zero T] (loaded : Bool) (fl : FileLoader) (data : List T)
    (size : Nat) : Bool × FileLoader × List T :=
  if !loaded || size % Plain.width T != 0 then
    (false, fl, data)
  else
    let data := resize data (size / Plain.width T)
    if size = 0 then
      (true, fl, data)
    else
      let (bytes, full, fl) := fl.read size
      (full, fl, overwrite data bytes)

/-- The bytes of an element of the `i`-th entry of a record. -/
def elementBytes (quanParameter : Option IDSTQuan) (i : Nat) : Nat :=
  match quanParameter with
  | some quan =>
    if i = 1 then
      1
    else if i = 2 && quan.scaleStorage = .FP16 then
      2
    else
      4
  | none => 4

/-- The sizes from the `i`-th on fit into the file.  As `fileSize` is an `int64_t`, this
test has the one against overflow in it. -/
def validSizes (quanParameter : Option IDSTQuan) (fileSize : Nat) : Nat → Nat → List Nat → Bool
  | _, _, [] => true
  | i, stop, size :: sizes =>
    size % elementBytes quanParameter i = 0 && stop + size ≤ fileSize &&
      validSizes quanParameter fileSize (i + 1) (stop + size) sizes

def validExpert (fileSize : Nat) : Option Convolution2D → Bool
  | none => false
  | some expert =>
    match expert.external with
    | [] => true
    | first :: sizes =>
      2 ≤ sizes.length && sizes.length ≤ 4 && (expert.quanParameter.isSome || sizes.length = 2) &&
        sizes.head? != some 0 &&
        validSizes expert.quanParameter fileSize 1 first sizes

def validateIndexedLinearExternal (op : Op) (contents : List Byte) : Bool :=
  match op.main with
  | .IndexedLinearParam param =>
    !param.linears.isEmpty && param.linears.all (validExpert contents.length)
  | _ => false

/-- An expert with a record is loaded. -/
def loadExpert (contents : List Byte) (expert : Convolution2D) : Bool × Convolution2D :=
  match expert.external with
  | [] => (true, expert)
  | first :: sizes =>
    let fl : FileLoader := ⟨contents, first⟩
    match expert.quanParameter with
    | some quan =>
      let (loaded, fl, buffer) :=
        loadIndexedExternalData true fl quan.buffer (sizes.getD 0 0)
      let (loaded, fl, alpha, alphaFp16) :=
        match quan.scaleStorage with
        | .FP16 =>
          let (loaded, fl, alphaFp16) :=
            loadIndexedExternalData loaded fl quan.alphaFp16 (sizes.getD 1 0)
          (loaded, fl, quan.alpha, alphaFp16)
        | .FP32 =>
          let (loaded, fl, alpha) :=
            loadIndexedExternalData loaded fl quan.alpha (sizes.getD 1 0)
          (loaded, fl, alpha, quan.alphaFp16)
      let (loaded, fl, bias) :=
        if 2 < sizes.length then
          loadIndexedExternalData loaded fl expert.bias (sizes.getD 2 0)
        else
          (loaded, fl, expert.bias)
      let (loaded, _, index) :=
        if 3 < sizes.length then
          loadIndexedExternalData loaded fl quan.index (sizes.getD 3 0)
        else
          (loaded, fl, quan.index)
      (loaded, { expert with
        bias := bias,
        quanParameter := some { quan with
          buffer := buffer, alpha := alpha, alphaFp16 := alphaFp16, index := index },
        external := if loaded then [] else expert.external })
    | none =>
      let (loaded, fl, weight) :=
        loadIndexedExternalData true fl expert.weight (sizes.getD 0 0)
      let (loaded, _, bias) :=
        loadIndexedExternalData loaded fl expert.bias (sizes.getD 1 0)
      (loaded, { expert with
        weight := weight, bias := bias,
        external := if loaded then [] else expert.external })

/-- The experts up to the first that is not loaded; none is a null pointer. -/
def loadExperts (contents : List Byte) :
    List (Option Convolution2D) → Option (Bool × List (Option Convolution2D))
  | [] => some (true, [])
  | none :: _ => none
  | some expert :: linears =>
    match loadExpert contents expert with
    | (false, expert) => some (false, some expert :: linears)
    | (true, expert) =>
      (loadExperts contents linears).map fun loaded =>
        (loaded.1, some expert :: loaded.2)

/-- The case of the convolutions; other records than those with three entries are left as
they are. -/
def loadConvolution (contents : List Byte) (param : Convolution2D) : Convolution2D :=
  match param.external with
  | [first, size, size'] =>
    let fl : FileLoader := ⟨contents, first⟩
    match param.quanParameter with
    | some quan =>
      let (fl, buffer) := loadExternalData fl quan.buffer size
      let (_, alpha) := loadExternalData fl quan.alpha size'
      { param with
        quanParameter := some { quan with buffer := buffer, alpha := alpha },
        external := [] }
    | none =>
      let (fl, weight) := loadExternalData fl param.weight size
      let (_, bias) := loadExternalData fl param.bias size'
      { param with weight := weight, bias := bias, external := [] }
  | _ => param

def loadBlob (contents : List Byte) (param : Blob) : Blob :=
  match param.external with
  | [first, size] =>
    let fl : FileLoader := ⟨contents, first⟩
    match param.dataType with
    | .DT_FLOAT =>
      { param with
        float32s := (loadExternalData fl param.float32s size).2, external := [] }
    | .DT_INT32 =>
      { param with int32s := (loadExternalData fl param.int32s size).2, external := [] }
    | .DT_UINT8 =>
      { param with uint8s := (loadExternalData fl param.uint8s size).2, external := [] }
    | .DT_INT8 =>
      { param with int8s := (loadExternalData fl param.int8s size).2, external := [] }
    | _ => { param with external := [] }
  | _ => param

/-- `loadExternalParam`: the result and the op, or a null pointer is used.  An op with a
path has a file of its own. -/
def loadExternalParam (files : String → List Byte) (contents : List Byte) (op : Op) :
    Option (Bool × Op) :=
  let contents := if op.externalPath ≠ "" then files op.externalPath else contents
  match op.type with
  | .IndexedLinear =>
    if validateIndexedLinearExternal op contents then
      match op.main with
      | .IndexedLinearParam param =>
        (loadExperts contents param.linears).map fun loaded =>
          (loaded.1, { op with
            main := .IndexedLinearParam ⟨loaded.2⟩,
            externalPath := if loaded.1 then "" else op.externalPath })
      | _ => none
    else
      some (false, op)
  | .Convolution | .Deconvolution | .ConvolutionDepthwise =>
    match op.main with
    | .Convolution2D param =>
      if param.external.length ≠ 3 then
        some (true, op)
      else
        some (true, { op with
          main := .Convolution2D (loadConvolution contents param), externalPath := "" })
    | _ => none
  | .TrainableParam | .Const =>
    match op.main with
    | .Blob param =>
      if param.external.length ≠ 2 then
        some (true, op)
      else
        some (true, { op with
          main := .Blob (loadBlob contents param), externalPath := "" })
    | _ => none
  | .Scale | .LayerNorm | .other _ => some (true, { op with externalPath := "" })

end Mnn.Converter
