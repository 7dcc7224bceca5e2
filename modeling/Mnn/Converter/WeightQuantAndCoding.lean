import Mnn.Core.ConvolutionCommon

/-!
# The quantisation of the weights of a convolution

The rows of the weights, one of each output, are cut into blocks; each block
has a scale of its own, and an offset if the quantisation is asymmetric.
Numbers are exact; what is read behind the weights is taken to be zero.
-/

namespace Mnn.Converter.WeightQuant

open Mnn.Core.IDST

variable {K : Type} [Field K] [LinearOrder K] [IsStrictOrderedRing K] [FloorRing K]

/-- A convolution; each output has the same number of channels of a kernel. -/
structure Convolution2D (K : Type) where
  inputCount : Nat
  outputCount : Nat
  kernelX : Nat
  kernelY : Nat
  weight : List K
  outputCount_pos : 0 < outputCount
  kernel_pos : 0 < kernelX * kernelY
  weight_pos : 0 < weight.length
  dvd_length : outputCount * (kernelX * kernelY) ∣ weight.length

/-- What is asked for, in the configuration or for the operation. -/
structure ModelConfig where
  weightQuantBits : Nat
  weightQuantAsymmetric : Bool
  weightQuantBlock : Int

/-! ## Loops over a block -/

/-- The indices that `findMinMax` and `findAbsMax` read. -/
def readIndices (beginIndex count : Nat) : List Nat :=
  beginIndex :: List.range' (beginIndex + 1) (count - 1)

def findAbsMax (weights : Nat → K) (count : Nat) : K := (List.range' 1 (count - 1)).foldl
    (fun absMax i =>
      let value := |weights i|
      if value > absMax then value else absMax)
    |weights 0|

def findMinMax (weights : Nat → K) (count : Nat) : K × K := (List.range' 1 (count - 1)).foldl
    (fun (min, max) i =>
      let value := weights i
      (if value < min then value else min, if value > max then value else max))
    (weights 0, weights 0)

namespace ModelConfig

variable (config : ModelConfig)

/-- Bits must be from two to eight. -/
def bits : Nat := min (max config.weightQuantBits 2) 8

def threshold : Int := (2 ^ (config.bits - 1) : Nat) - 1

def clampMin : Int :=
  if config.weightQuantAsymmetric then
    -config.threshold - 1
  else
    -config.threshold

end ModelConfig

namespace Convolution2D

variable (param : Convolution2D K) (config : ModelConfig)

/-- The number of weights as an `int`, where that is not negative. -/
def weightSize : Nat := (BitVec.ofNat 32 param.weight.length).toInt.toNat

def kernelSize : Nat := param.weightSize / param.outputCount

def kxky : Nat := param.kernelX * param.kernelY

def icCount : Nat := param.kernelSize / param.kxky

/-- The condition of the quantisation by blocks. -/
def isBlocked : Bool := config.weightQuantBlock > 0 &&
    param.icCount % config.weightQuantBlock.toNat == 0 &&
    config.weightQuantBlock ≥ 16 && config.weightQuantBlock % 16 == 0

def block_num : Nat :=
  if param.isBlocked config then
    param.inputCount / config.weightQuantBlock.toNat
  else
    1

def block_size : Nat :=
  if param.isBlocked config then
    config.weightQuantBlock.toNat * param.kxky
  else
    param.kernelSize

def weightData (i : Nat) : K := param.weight.getD i 0

/-- Where the blocks begin. -/
def beginIndices : List Nat := (List.range param.outputCount).flatMap fun k =>
    (List.range (param.block_num config)).map fun b =>
      k * param.kernelSize + b * param.block_size config

/-- The indices of each block. -/
def blocks : List (List Nat) := (param.beginIndices config).map fun beginIndex =>
    readIndices beginIndex (param.block_size config)

/-- The scale of a block, and its offset. -/
def blockScale (beginIndex : Nat) : K × K :=
  let weights i := param.weightData (beginIndex + i)
  if config.weightQuantAsymmetric then
    let (min, max) := findMinMax weights (param.block_size config)
    ((max - min) / ((config.threshold - config.clampMin : Int) : K), min)
  else
    (findAbsMax weights (param.block_size config) / (config.threshold : K), 0)

/-- The scales as they are stored. -/
def scales : List K :=
  if config.weightQuantAsymmetric then
    (param.beginIndices config).flatMap fun beginIndex =>
      let (scale, min) := param.blockScale config beginIndex
      [min, scale]
  else
    (param.beginIndices config).map fun beginIndex =>
      (param.blockScale config beginIndex).1

/-- The number of rows that the encoder is called with. -/
def kernelNum : Nat := param.outputCount * param.block_num config

/-- Each index that is read, for the scales or by the encoder. -/
def indicesRead : List Nat :=
  (param.blocks config).flatten ++ List.range (param.block_size config * param.kernelNum config)

end Convolution2D

/-- The weights are quantised; there is no result if nothing is. -/
def WeightQuantAndCoding (config : ModelConfig) (param : Convolution2D K) : Option (IDSTQuanT K) :=
  if param.weightSize = 0 then
    none
  else
    encode param.weightData (param.scales config) (param.block_size config)
      (param.kernelNum config) config.weightQuantAsymmetric config.clampMin
      config.bits

end Mnn.Converter.WeightQuant
