import Mnn.Core.ConvolutionCommon
import Mnn.Foundation.RawImages

/-!
# The parameters of an int8 convolution

`getConvInt8Parameters` hands out the codes of the weights with their scales and
offsets.  The codes and scales lie in the operation or in a file of their own, and
the scales are floats or halves.  Floats and halves are stored as their bits, and
what they stand for is a parameter; the arithmetic on them is exact.  Memory is
taken to be there when it is allocated.
-/

namespace Mnn.Core.IDST

open Mnn.Foundation BitFields RawImages

variable {K : Type} [Field K] [LinearOrder K] [IsStrictOrderedRing K] [FloorRing K]

/-! ## Operations -/

/-- The types of weights that are quantised: 1, 2 and 4. -/
inductive QuanType where
  | idstQuanInt8
  | idstSparseQuan
  | weightInt8
  deriving DecidableEq

inductive ScaleStorageType where
  | FP32
  | FP16
  deriving DecidableEq

/-- The fields of `IDSTQuan` that are scalars. -/
structure QuanInfo (K : Type) where
  type : QuanType
  quantScale : K
  aMin : Int := 0
  readType : Int := 0
  has_scaleInt : Bool := false
  shapeInt32 : Bool := false
  scaleStorage : ScaleStorageType := .FP32

structure IDSTQuan (K : Type) extends QuanInfo K where
  buffer : Option (List Byte) := none
  alpha : Option (List (BitVec 32)) := none
  alphaFp16 : Option (List (BitVec 16)) := none

/-- The parameters of old models. -/
structure QuantizedFloatParam (K : Type) where
  weight : Option (List Byte) := none
  bias : Option (List (BitVec 32)) := none
  scale : Option (List K) := none

/-- The fields of `Convolution2D` and of its `common`. -/
structure ConvInfo (K : Type) where
  outputCount : Nat
  /-- The product of the counts of inputs and outputs and of the kernel. -/
  weightCount : Nat
  bias : Option (List (BitVec 32)) := none
  symmetricQuan : Option (QuantizedFloatParam K) := none

structure Convolution2D (K : Type) extends ConvInfo K where
  quanParameter : IDSTQuan K
  external : Option (List Nat) := none

/-- `externalPath` is given by what is in the file. -/
structure Op (K : Type) where
  main : Convolution2D K
  externalPath : Option (List Byte) := none

/-- What the numbers stand for. -/
structure Readings (K : Type) where
  single : BitVec 32 → K
  half : BitVec 16 → K

/-- `cpuFamily` tells the type of the backend, `useCachedMmap` a hint of its runtime. -/
structure Backend where
  cpuFamily : Bool
  useCachedMmap : Bool

/-! ## Scales -/

/-- The scales of `Int8Common`. -/
structure LoadedAlpha (K : Type) where
  alpha : Option (List K) := none
  alphaHalf : Option (List (BitVec 16)) := none
  alphaSize : Nat := 0

namespace LoadedAlpha

/-- The halves are converted once. -/
def getAlphaFloat (reading : Readings K) (loaded : LoadedAlpha K) : LoadedAlpha K :=
  match loaded.alpha, loaded.alphaHalf with
  | none, some alphaHalf => { loaded with alpha := some (alphaHalf.map reading.half) }
  | _, _ => loaded

end LoadedAlpha

namespace QuanInfo

variable (quan : QuanInfo K)

def oldType4 : Bool := quan.type = .weightInt8 ∧ quan.aMin = 0 ∧ |quan.quantScale| < 1 / 1000000

def asymmetric : Bool := quan.readType ≠ 0 ∨ quan.oldType4

/-- The least code; the old version has -128. -/
def clampMin : Int :=
  if quan.aMin = 0 then -128 else quan.aMin

/-- The factor of all scales, if there is one. -/
def extraFactor : K :=
  if quan.has_scaleInt ∨ quan.oldType4 then 1 else quan.quantScale

/-- `alpha[2 * o] -= clampMin * alpha[2 * o + 1]` for each output. -/
def foldMin (outputCount : Nat) (alpha : List K) : List K := alpha.mapIdx fun i value =>
    if i % 2 = 0 ∧ i / 2 < outputCount then
      value - quan.clampMin * alpha.getD (i + 1) 0
    else
      value

/-- The least code is moved into the offsets, and the factor into all scales. -/
def scaleAlpha (reading : Readings K) (loaded : LoadedAlpha K) : LoadedAlpha K :=
  let folded :=
    if quan.asymmetric ∧ quan.clampMin < 0 then
      let floats := loaded.getAlphaFloat reading
      { floats with alpha := floats.alpha.map (quan.foldMin (loaded.alphaSize / 2)) }
    else
      loaded
  if quan.extraFactor ≠ 1 then
    let floats := folded.getAlphaFloat reading
    { floats with alpha := floats.alpha.map (List.map (· * quan.extraFactor)) }
  else
    folded

/-- The flags with which the codes are decoded. -/
def int8Mode : LoadMode where
  forceQuant := true
  forceFloat := false
  has_scaleInt := quan.has_scaleInt
  hasOutput := false

end QuanInfo

/-! ## Loading -/

/-- What has been read before the codes are decoded from `buffer_ptr`. -/
structure Fetched (K : Type) where
  buffer_ptr : Option (List Byte) := none
  /-- What `ReadQuanData_c` made of the file. -/
  buffer : Option Decoded := none
  weightLength : Nat := 0
  loaded : LoadedAlpha K := {}

def INT_MAX : Nat := 2 ^ 31 - 1

def INT64_MAX : Nat := 2 ^ 63 - 1

def externalElementCount (bytes elementBytes : Nat) : Option Nat :=
  if bytes % elementBytes ≠ 0 ∨ bytes / elementBytes > INT_MAX then
    none
  else
    some (bytes / elementBytes)

/-- The scales are read from where the file is. -/
def readAlpha (reading : Readings K) (quan : QuanInfo K) (alphaCount : Nat)
    (file : List Byte) : Option (LoadedAlpha K) :=
  if alphaCount = 0 then
    some { alphaSize := alphaCount }
  else
    match quan.scaleStorage with
    | .FP16 =>
      (read (2 * alphaCount) file).map fun (bytes, _) =>
        { alphaHalf := some (ofImages (BitVec 16) alphaCount bytes), alphaSize := alphaCount }
    | .FP32 =>
      (read (4 * alphaCount) file).map fun (bytes, _) =>
        { alpha := some ((ofImages (BitVec 32) alphaCount bytes).map reading.single)
          alphaSize := alphaCount }

/-- The branch of `load` for parameters in a file. -/
def fetchExternal (reading : Readings K) (backend : Backend) (op : Op K) : Option (Fetched K) :=
  let quan := op.main.quanParameter.toQuanInfo
  match op.main.external with
  | some (offset :: buffer_size :: alphaBytes :: _) =>
    let alphaElemBytes := if quan.scaleStorage = .FP16 then 2 else 4
    (externalElementCount alphaBytes alphaElemBytes).bind fun alphaCount =>
      if offset + buffer_size + alphaBytes > INT64_MAX then
        none
      else if backend.useCachedMmap then
        some { weightLength := op.main.weightCount, loaded := { alphaSize := alphaCount } }
      else
        op.externalPath.bind fun contents =>
          let file := contents.drop offset
          if buffer_size ≠ 0 ∧ quan.type = .idstQuanInt8 then
            (ReadQuanData_c quan.int8Mode quan.shapeInt32 {} file).bind fun (buffer, file) =>
              if buffer.len = 0 then
                none
              else
                (readAlpha reading quan alphaCount file).map fun loaded =>
                  { buffer := some buffer, weightLength := buffer.len, loaded := loaded }
          else if buffer_size ≠ 0 then
            (read buffer_size file).bind fun (bytes, file) =>
              (readAlpha reading quan alphaCount file).map fun loaded =>
                { buffer_ptr := some bytes, loaded := loaded }
          else
            (readAlpha reading quan alphaCount file).map fun loaded => { loaded := loaded }
  | _ => none

/-- The branch of `load` for parameters in the operation. -/
def fetchInline (reading : Readings K) (quan : IDSTQuan K) : Option (Fetched K) :=
  match quan.scaleStorage with
  | .FP16 =>
    -- There is no check that the halves are there.
    quan.alphaFp16.map fun alphaFp16 =>
      { buffer_ptr := quan.buffer
        loaded := { alphaHalf := some alphaFp16, alphaSize := alphaFp16.length } }
  | .FP32 =>
    match quan.alpha with
    | some alpha =>
      some
        { buffer_ptr := quan.buffer
          loaded := { alpha := some (alpha.map reading.single), alphaSize := alpha.length } }
    | none => some { buffer_ptr := quan.buffer }

/-- The codes; reading from no memory has no result. -/
def decodeWeight (quan : QuanInfo K) (fetched : Fetched K) : Option (Option Decoded) :=
  match quan.type with
  | .idstQuanInt8 =>
    if fetched.weightLength = 0 then
      fetched.buffer_ptr.bind fun bytes =>
        (ReadQuanData_c quan.int8Mode quan.shapeInt32 {} bytes).map fun decoded =>
          some decoded.1
    else
      some fetched.buffer
  | .idstSparseQuan =>
    let alpha := fetched.loaded.alpha.getD []
    fetched.buffer_ptr.bind fun bytes =>
      (ReadSparseQuanData_c (exactOps K) false quan.shapeInt32 (fun i => alpha.getD i 0)
          fetched.loaded.alphaSize {} bytes).map fun decoded => some decoded.1
  | .weightInt8 =>
    fetched.buffer_ptr.map fun bytes =>
      some { blob := some bytes, len := bytes.length, result := {} }

/-- The part of `Int8Common` that is read here. -/
structure Int8Weights (K : Type) where
  weight : Option (List Byte)
  weightSize : Nat
  asymmetric : Bool
  loaded : LoadedAlpha K

/-- The part of `load` behind what has been fetched, with `forceInt8`. -/
def loadFetched (reading : Readings K) (backend : Backend) (quan : QuanInfo K)
    (fetched : Fetched K) : Option (Int8Weights K) :=
  let fetched :=
    if ¬backend.cpuFamily ∨ quan.type = .idstSparseQuan then
      { fetched with loaded := fetched.loaded.getAlphaFloat reading }
    else
      fetched
  (decodeWeight quan fetched).bind fun decoded =>
    if backend.useCachedMmap then
      -- Only codes that are not encoded have been copied to the result.
      let copied := if quan.type = .weightInt8 then decoded else none
      some
        { weight := copied.bind Decoded.blob
          weightSize := (copied.map Decoded.len).getD 0
          asymmetric := quan.asymmetric
          loaded := fetched.loaded }
    else if decoded.bind Decoded.blob = none then
      none
    else
      some
        { weight := decoded.bind Decoded.blob
          weightSize := (decoded.map Decoded.len).getD 0
          asymmetric := quan.asymmetric
          loaded := quan.scaleAlpha reading fetched.loaded }

def USE_EXTERNAL_DATA (conv : Convolution2D K) : Bool :=
  match conv.external with
  | some (_ :: _ :: _) => true
  | _ => false

/-- `load` with `forceInt8`; `none` is a null pointer or the end of the program. -/
def loadInt8 (reading : Readings K) (backend : Backend) (op : Op K) : Option (Int8Weights K) :=
  let quan := op.main.quanParameter
  let fetched :=
    if USE_EXTERNAL_DATA op.main ∧ (op.externalPath.isSome ∨ backend.useCachedMmap) ∧
        quan.buffer = none then
      fetchExternal reading backend op
    else
      fetchInline reading quan
  fetched.bind (loadFetched reading backend quan.toQuanInfo)

/-! ## What is handed out -/

inductive Failure where
  /-- `MNN_ASSERT(quanCommon != nullptr)` -/
  | notLoaded
  /-- "No weight data!" -/
  | noWeight
  /-- "No bias & scale data!" -/
  | noScale
  deriving DecidableEq

/-- `scale` lists what is assigned to the caller's array, in order. -/
structure Int8Parameters (K : Type) where
  weight : List Byte
  weightSize : Nat
  scale : List (Nat × K)
  bias : Option (List (BitVec 32))
  deriving DecidableEq

/-- The assignments of the scales, and of the offsets behind them. -/
def scaleWrites (weightAsy : Bool) (ocUpHp : Nat) (alpha : List K) : List (Nat × K) :=
  if weightAsy then
    (List.range (alpha.length / 2)).flatMap fun i =>
      [(i, alpha.getD (2 * i + 1) 0), (i + ocUpHp, alpha.getD (2 * i) 0)]
  else
    alpha.mapIdx fun i value => (i, value)

/-- The end of `getConvInt8Parameters`: old models have scales and biases of their own. -/
def scaleAndBias (conv : ConvInfo K) (weight : List Byte) (weightSize : Nat)
    (weightAsy : Bool) (ocUpHp : Nat) (alpha : Option (List K)) :
    Except Failure (Int8Parameters K) :=
  match
    conv.symmetricQuan.bind QuantizedFloatParam.bias,
    conv.symmetricQuan.bind QuantizedFloatParam.scale with
  | some bias, some scale =>
    .ok
      { weight, weightSize
        scale := (scale.take conv.outputCount).mapIdx fun i value => (i, value)
        bias := some (bias.take conv.outputCount) }
  | _, _ =>
    match alpha with
    | some alpha =>
      .ok
        { weight, weightSize
          scale := scaleWrites weightAsy ocUpHp alpha
          bias := conv.bias.map (List.take conv.outputCount) }
    | none => .error .noScale

/-- `getConvInt8Parameters`, which loads the weights itself. -/
def getConvInt8Parameters (reading : Readings K) (backend : Backend) (ocUpHp : Nat)
    (op : Op K) : Except Failure (Int8Parameters K) :=
  let conv := op.main
  let quan := conv.quanParameter
  if quan.buffer.isSome ∨ conv.external.isSome then
    match loadInt8 reading backend op with
    | none => .error .notLoaded
    | some common =>
      match common.weight with
      | none => .error .noWeight
      | some weight =>
        -- Floats in the operation go before the scales that have been loaded.
        let alpha :=
          match quan.alpha with
          | some alpha => some (alpha.map reading.single)
          | none => (common.loaded.getAlphaFloat reading).alpha
        scaleAndBias conv.toConvInfo weight common.weightSize common.asymmetric ocUpHp alpha
  else
    match conv.symmetricQuan.bind QuantizedFloatParam.weight with
    | none => .error .noWeight
    | some weight =>
      scaleAndBias conv.toConvInfo weight weight.length false ocUpHp
        (quan.alpha.map (List.map reading.single))

end Mnn.Core.IDST
