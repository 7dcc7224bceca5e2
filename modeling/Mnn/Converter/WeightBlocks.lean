import Mnn.Converter.WeightQuantAndCoding
import Mnn.Core.IDSTAgreement

/-!
# Blocks of weights, and what they lose

The rows of the weights are cut into blocks of the channels of one output; but
the number of blocks is counted by the channels of the whole input.  As long as
the two agree, and the weights are counted by an `int`, the blocks partition
the weights, and each weight is loaded with an error of half a step at most.
They disagree as soon as a convolution has groups.
-/

namespace Mnn.Converter.WeightQuant

open Mnn.Core.IDST Mnn.Foundation.Rounding
open List
open Nat

variable {K : Type} [Field K] [LinearOrder K] [IsStrictOrderedRing K] [FloorRing K]
  {count i beginIndex n : Nat}

theorem cover_range' (inBlock : i < count) :
    i = 0 ∨ i ∈ List.range' 1 (count - 1) := by
  by_cases first : i = 0
  · exact Or.inl first
  · right
    rw [mem_range'_1]
    omega

omit [IsStrictOrderedRing K] [FloorRing K] in
theorem abs_le_findAbsMax (weights : Nat → K) (inBlock : i < count) :
    |weights i| ≤ findAbsMax weights count := by
  have bounds := @foldl_bounds K Nat
      (fun absMax i => if |weights i| > absMax then |weights i| else absMax)
      (fun absMax i => |weights i| ≤ absMax)
      (by
        intro absMax i other bounded
        show _ ≤ ite _ _ _
        split
        · rename_i more
          exact bounded.trans more.le
        · exact bounded)
      (by
        intro absMax i
        show _ ≤ ite _ _ _
        split
        · exact le_refl _
        · rename_i less
          exact not_lt.mp less)
      (List.range' 1 (count - 1)) |weights 0|
  rcases cover_range' inBlock with rfl | isIn
  · exact bounds.1 0 (le_refl _)
  · exact bounds.2 i isIn

omit [Field K] [IsStrictOrderedRing K] [FloorRing K] in
theorem findMinMax_bounds (weights : Nat → K) (inBlock : i < count) :
    (findMinMax weights count).1 ≤ weights i ∧ weights i ≤ (findMinMax weights count).2 := by
  have bounds := @foldl_bounds (K × K) Nat (fun ends i =>
        (if weights i < ends.1 then weights i else ends.1,
          if weights i > ends.2 then weights i else ends.2))
      (fun ends i => ends.1 ≤ weights i ∧ weights i ≤ ends.2)
      (by
        rintro ⟨min, max⟩ i other ⟨low, high⟩
        constructor
        · show ite _ _ _ ≤ _
          split
          · rename_i less
            exact less.le.trans low
          · exact low
        · show _ ≤ ite _ _ _
          split
          · rename_i more
            exact high.trans more.le
          · exact high)
      (by
        rintro ⟨min, max⟩ i
        constructor
        · show ite _ _ _ ≤ _
          split
          · exact le_refl _
          · rename_i more
            exact not_lt.mp more
        · show _ ≤ ite _ _ _
          split
          · exact le_refl _
          · rename_i less
            exact not_lt.mp less)
      (List.range' 1 (count - 1)) (weights 0, weights 0)
  rcases cover_range' inBlock with rfl | isIn
  · exact bounds.1 0 ⟨le_refl _, le_refl _⟩
  · exact bounds.2 i isIn

/-! ## Codes -/

namespace ModelConfig

variable (config : ModelConfig)

theorem two_le_bits : 2 ≤ config.bits := by
  unfold bits
  omega

theorem bits_le_eight : config.bits ≤ 8 := by
  unfold bits
  omega

theorem threshold_pos : 0 < config.threshold := by
  have atLeast : 2 ^ 1 ≤ 2 ^ (config.bits - 1) :=
    Nat.pow_le_pow_right (by decide) (by have := config.two_le_bits; omega)
  unfold threshold
  omega

theorem clampMin_neg : config.clampMin < 0 := by
  have positive := config.threshold_pos
  unfold clampMin
  split
  · omega
  · omega

theorem maxValue_bits : maxValue config.bits = config.threshold :=
  rfl

theorem minValue_bits : minValue config.bits = -config.threshold - 1 := by
  unfold minValue threshold
  omega

end ModelConfig

section Accuracy

variable (config : ModelConfig) {scale weight : K}

theorem abs_symmetric_sub_le {absMax : K} (isScale : scale = absMax / (config.threshold : K))
    (isKept : scale = 0 ∨ 1 / 1000000 < scale) (bound : |weight| ≤ absMax) :
    |((if scale > 1 / 1000000 then
            clamp config.bits (nearest (weight / scale) + 0)
          else
            0 : Int) : K) * scale - weight| ≤
      scale / 2 := by
  have positive : (0 : K) < config.threshold := Int.cast_pos.mpr config.threshold_pos
  have isMost : scale * config.threshold = absMax := by
    rw [isScale, div_mul_cancel₀ _ positive.ne']
  rcases isKept with rfl | isLarge
  · have noWeight : weight = 0 := by
      rw [zero_mul] at isMost
      rw [← isMost] at bound
      exact abs_nonpos_iff.mp bound
    rw [mul_zero, noWeight, sub_zero, abs_zero, zero_div]
  · have scalePos : 0 < scale := lt_trans (by norm_num) isLarge
    have inRange := abs_nearest_le scalePos isMost bound
    rw [if_pos isLarge, Int.add_zero, clamp_of_inRange]
    · exact abs_grid_sub_le scalePos weight
    · constructor
      · rw [config.minValue_bits]
        omega
      · rw [config.maxValue_bits]
        exact inRange.2

theorem abs_asymmetric_sub_le {min max : K} (asymmetric : config.weightQuantAsymmetric = true)
    (isScale : scale = (max - min) / ((config.threshold - config.clampMin : Int) : K))
    (isKept : scale = 0 ∨ 1 / 1000000 < scale) (low : min ≤ weight) (high : weight ≤ max) :
    |((if scale > 1 / 1000000 then
            clamp config.bits (nearest ((weight - min) / scale) + minValue config.bits)
          else
            minValue config.bits : Int) : K) * scale +
          (min - config.clampMin * scale) -
        weight| ≤
      scale / 2 := by
  have isLeast : config.clampMin = minValue config.bits := by
    rw [config.minValue_bits, ModelConfig.clampMin, if_pos asymmetric]
  have someLevel : 0 < config.threshold - config.clampMin := by
    have := config.threshold_pos
    have := config.clampMin_neg
    omega
  have positive : (0 : K) < ((config.threshold - config.clampMin : Int) : K) :=
    Int.cast_pos.mpr someLevel
  have isMost : scale * ((config.threshold - config.clampMin : Int) : K) = max - min := by
    rw [isScale, div_mul_cancel₀ _ positive.ne']
  rcases isKept with rfl | isLarge
  · have isMin : weight = min := by
      rw [zero_mul] at isMost
      exact le_antisymm (high.trans (sub_eq_zero.mp isMost.symm).le) low
    rw [mul_zero, mul_zero, zero_add, sub_zero, isMin, sub_self, abs_zero, zero_div]
  · have scalePos : 0 < scale := lt_trans (by norm_num) isLarge
    have inRange := nearest_mem_levels scalePos isMost low high
    rw [if_pos isLarge, clamp_of_inRange, isLeast]
    · have moved :
          ((nearest ((weight - min) / scale) + minValue config.bits : Int) : K) * scale +
              (min - minValue config.bits * scale) -
            weight =
          nearest ((weight - min) / scale) * scale - (weight - min) := by
        push_cast
        ring
      rw [moved]
      exact abs_grid_sub_le scalePos (weight - min)
    · constructor
      · omega
      · rw [config.maxValue_bits]
        omega

end Accuracy

/-! ## Blocks -/

namespace Convolution2D

section Blocks

omit [Field K] [LinearOrder K] [IsStrictOrderedRing K] [FloorRing K]

variable (param : Convolution2D K) (config : ModelConfig)

/-- Weights that an `int` counts, and as many blocks as the rows have. -/
def Fits : Prop :=
  param.weight.length < 2 ^ 31 ∧ (param.isBlocked config = true →
      param.inputCount / config.weightQuantBlock.toNat =
        param.icCount / config.weightQuantBlock.toNat)

variable {param config}

theorem weightSize_of_lt (isInt : param.weight.length < 2 ^ 31) :
    param.weightSize = param.weight.length := by
  unfold weightSize
  rw [BitVec.toInt_eq_toNat_cond, BitVec.toNat_ofNat,
    mod_eq_of_lt (by omega), if_pos (by omega), Int.toNat_natCast]

theorem exists_channels (isInt : param.weight.length < 2 ^ 31) :
    0 < param.icCount ∧ param.kernelSize = param.icCount * param.kxky ∧
      param.weight.length = param.outputCount * param.kernelSize := by
  rcases param.dvd_length with ⟨channels, isLength⟩
  have isSize : param.weightSize = param.outputCount * (param.kxky * channels) := by
    rw [weightSize_of_lt isInt, isLength, mul_assoc]
    rfl
  have isRow : param.kernelSize = param.kxky * channels := by
    rw [kernelSize, isSize, Nat.mul_div_cancel_left _ param.outputCount_pos]
  have areChannels : param.icCount = channels := by
    rw [icCount, isRow]
    exact Nat.mul_div_cancel_left _ param.kernel_pos
  refine ⟨?_, ?_, ?_⟩
  · rw [areChannels, pos_iff_ne_zero]
    rintro rfl
    have someWeight := param.weight_pos
    rw [isLength, mul_zero] at someWeight
    exact lt_irrefl 0 someWeight
  · rw [isRow, areChannels, mul_comm]
  · rw [← weightSize_of_lt isInt, isSize, isRow]

theorem isBlocked_iff :
    param.isBlocked config = true ↔ param.icCount % config.weightQuantBlock.toNat = 0 ∧
        16 ≤ config.weightQuantBlock ∧ config.weightQuantBlock % 16 = 0 := by
  unfold isBlocked
  simp only [Bool.and_eq_true, decide_eq_true_eq, beq_iff_eq]
  constructor
  · rintro ⟨⟨⟨-, channels⟩, atLeast⟩, multiple⟩
    exact ⟨channels, atLeast, multiple⟩
  · rintro ⟨channels, atLeast, multiple⟩
    exact ⟨⟨⟨lt_of_lt_of_le (by decide) atLeast, channels⟩, atLeast⟩, multiple⟩

theorem block_size_pos (isInt : param.weight.length < 2 ^ 31) : 0 < param.block_size config := by
  rcases exists_channels isInt with ⟨someChannel, isRow, -⟩
  unfold block_size
  split
  · rename_i blocked
    have atLeast := (isBlocked_iff.mp blocked).2.1
    exact mul_pos (by omega) param.kernel_pos
  · rw [isRow]
    exact mul_pos someChannel param.kernel_pos

/-- The blocks fit if and only if those of a row are as long as the row. -/
theorem fits_iff_covers (isInt : param.weight.length < 2 ^ 31) :
    param.Fits config ↔ param.block_num config * param.block_size config = param.kernelSize := by
  rcases exists_channels isInt with ⟨-, isRow, -⟩
  unfold Fits block_num block_size
  by_cases blocked : param.isBlocked config = true
  · rcases isBlocked_iff.mp blocked with ⟨channels, atLeast, -⟩
    have someBlock : 0 < config.weightQuantBlock.toNat := by omega
    have areChannels :
        param.icCount / config.weightQuantBlock.toNat * config.weightQuantBlock.toNat =
          param.icCount :=
      Nat.div_mul_cancel (Nat.dvd_of_mod_eq_zero channels)
    rw [if_pos blocked, if_pos blocked, isRow, ← mul_assoc]
    constructor
    · rintro ⟨-, agree⟩
      rw [agree blocked, areChannels]
    · intro covers
      refine ⟨isInt, fun _ => ?_⟩
      have same := eq_of_mul_eq_mul_right param.kernel_pos covers
      rw [← areChannels] at same
      exact eq_of_mul_eq_mul_right someBlock same
  · rw [if_neg blocked, if_neg blocked]
    constructor
    · intro _
      exact one_mul _
    · intro _
      exact ⟨isInt, fun isBlocked => absurd isBlocked blocked⟩

theorem beginIndices_eq (covers :
      param.block_num config * param.block_size config = param.kernelSize) :
    param.beginIndices config = (List.range (param.kernelNum config)).map
        (· * param.block_size config) := by
  unfold beginIndices
  have isBegin (k b : Nat) :
      k * param.kernelSize + b * param.block_size config =
        (k * param.block_num config + b) * param.block_size config := by
    rw [← covers, add_mul, mul_assoc]
  simp only [isBegin]
  rw [flatMap_rows (param.block_num config) param.outputCount
      fun _ p => p * param.block_size config,
    kernelNum, mul_comm]

theorem readIndices_eq (positive : 0 < count) :
    readIndices beginIndex count = (List.range count).map fun i => beginIndex + i := by
  rcases exists_eq_succ_of_ne_zero positive.ne' with ⟨rest, rfl⟩
  rw [← range'_eq_map_range]
  rfl

theorem length_readIndices (positive : 0 < count) :
    (readIndices beginIndex count).length = count := by
  rw [readIndices_eq positive, length_map, length_range]

theorem flatten_blocks (covers :
      param.block_num config * param.block_size config = param.kernelSize)
    (positive : 0 < param.block_size config) :
    (param.blocks config).flatten =
      List.range (param.block_size config * param.kernelNum config) := by
  unfold blocks
  rw [beginIndices_eq covers, map_map]
  show ((List.range _).map fun n =>
    readIndices (n * param.block_size config) _).flatten = _
  simp only [readIndices_eq positive]
  rw [← flatMap_def, flatMap_rows (param.block_size config) (param.kernelNum config) fun _ p => p]
  exact map_id _

theorem length_flatten_blocks (positive : 0 < param.block_size config) :
    (param.blocks config).flatten.length = param.block_size config * param.kernelNum config := by
  unfold blocks beginIndices kernelNum
  simp only [length_flatten, map_map, Function.comp_def,
    length_readIndices positive, map_const', sum_replicate,
    length_flatMap, length_map, length_range, smul_eq_mul]
  exact mul_comm _ _

end Blocks

end Convolution2D

/-! ## Scales -/

theorem getElem?_flatMap_pair {α β : Type} (first second : α → β) (list : List α) (k : Nat) :
    (list.flatMap fun item => [first item, second item])[2 * k]? = list[k]?.map first ∧
      (list.flatMap fun item => [first item, second item])[2 * k + 1]? = list[k]?.map second := by
  induction list generalizing k with
  | nil => exact ⟨rfl, rfl⟩
  | cons item list ih =>
    cases k with
    | zero => exact ⟨rfl, rfl⟩
    | succ k => exact ih k

namespace Convolution2D

variable {param : Convolution2D K} {config : ModelConfig}

section Block

variable {beginIndex v : Nat} (inBlock : v < param.block_size config)

include inBlock

omit [IsStrictOrderedRing K] [FloorRing K] in
theorem blockScale_asymmetric (asymmetric : config.weightQuantAsymmetric = true) :
    ∃ max, (param.blockScale config beginIndex).2 ≤ param.weightData (beginIndex + v) ∧
        param.weightData (beginIndex + v) ≤ max ∧
        (param.blockScale config beginIndex).1 = (max - (param.blockScale config beginIndex).2) /
            ((config.threshold - config.clampMin : Int) : K) := by
  have bounds := findMinMax_bounds (fun i => param.weightData (beginIndex + i)) inBlock
  unfold blockScale
  rw [if_pos asymmetric]
  exact ⟨_, bounds.1, bounds.2, rfl⟩

omit [IsStrictOrderedRing K] [FloorRing K] in
theorem blockScale_symmetric (symmetric : ¬config.weightQuantAsymmetric = true) :
    ∃ absMax,
      |param.weightData (beginIndex + v)| ≤ absMax ∧ (param.blockScale config beginIndex).1 =
          absMax / (config.threshold : K) := by
  have bound := abs_le_findAbsMax (fun i => param.weightData (beginIndex + i)) inBlock
  unfold blockScale
  rw [if_neg symmetric]
  exact ⟨_, bound, rfl⟩

end Block

section Scales

variable (covers : param.block_num config * param.block_size config = param.kernelSize)

include covers

omit [IsStrictOrderedRing K] [FloorRing K] in
theorem length_scales :
    (param.scales config).length =
      if config.weightQuantAsymmetric then
        2 * param.kernelNum config
      else
        param.kernelNum config := by
  unfold scales
  rw [beginIndices_eq covers]
  split
  · simp only [length_flatMap, length_cons, length_nil,
      map_const', sum_replicate, length_map, length_range,
      smul_eq_mul]
    exact mul_comm _ _
  · rw [length_map, length_map, length_range]

omit [IsStrictOrderedRing K] [FloorRing K] in
theorem scales_asymmetric (asymmetric : config.weightQuantAsymmetric = true)
    (isBlock : n < param.kernelNum config) :
    (param.scales config).getD (2 * n) 0 =
        (param.blockScale config (n * param.block_size config)).2 ∧
      (param.scales config).getD (2 * n + 1) 0 =
        (param.blockScale config (n * param.block_size config)).1 := by
  have isAt : ((List.range (param.kernelNum config)).map (· * param.block_size config))[n]? =
        some (n * param.block_size config) := by
    rw [getElem?_map, getElem?_range isBlock]
    rfl
  have pair := getElem?_flatMap_pair (fun begin => (param.blockScale config begin).2)
      (fun begin => (param.blockScale config begin).1)
      ((List.range (param.kernelNum config)).map (· * param.block_size config)) n
  unfold scales
  rw [beginIndices_eq covers, if_pos asymmetric, getD_eq_getElem?_getD,
    getD_eq_getElem?_getD, pair.1, pair.2, isAt]
  exact ⟨rfl, rfl⟩

omit [IsStrictOrderedRing K] [FloorRing K] in
theorem scales_symmetric (symmetric : ¬config.weightQuantAsymmetric = true)
    (isBlock : n < param.kernelNum config) :
    (param.scales config).getD n 0 = (param.blockScale config (n * param.block_size config)).1 := by
  unfold scales
  rw [beginIndices_eq covers, if_neg symmetric, getD_eq_getElem?_getD,
    getElem?_map, getElem?_map, getElem?_range isBlock]
  rfl

theorem abs_loaded_sub_le {quan : IDSTQuanT K}
    (isEncoded : WeightQuantAndCoding config param = some quan) {v : Nat}
    (isBlock : n < param.kernelNum config) (inBlock : v < param.block_size config)
    (isKept :
      (param.blockScale config (n * param.block_size config)).1 = 0 ∨ 1 / 1000000 <
          (param.blockScale config (n * param.block_size config)).1) :
    |quan.backToFloat n (codeAt param.weightData (param.scales config)
              config.weightQuantAsymmetric config.bits
              (param.block_size config) (n * param.block_size config + v)) -
          param.weightData (n * param.block_size config + v)| ≤
      (param.blockScale config (n * param.block_size config)).1 / 2 := by
  have row : (n * param.block_size config + v) / param.block_size config = n := by
    rw [mul_comm, mul_add_div (zero_lt_of_lt inBlock),
      div_eq_of_lt inBlock, add_zero]
  unfold WeightQuantAndCoding at isEncoded
  split at isEncoded
  · nomatch isEncoded
  · rw [backToFloat_encode isEncoded (length_scales covers) config.clampMin_neg isBlock]
    unfold codeAt FloatTensor.quantise
    rw [row]
    by_cases asymmetric : config.weightQuantAsymmetric = true
    · rcases scales_asymmetric covers asymmetric isBlock with ⟨isMin, isScale⟩
      rcases blockScale_asymmetric inBlock asymmetric with
        ⟨max, low, high, ofBlock⟩
      have close := abs_asymmetric_sub_le config asymmetric ofBlock isKept low high
      simp only [if_pos asymmetric, isMin, isScale]
      simpa only [exactOps, decide_eq_true_eq] using close
    · have isScale := scales_symmetric covers asymmetric isBlock
      rcases blockScale_symmetric inBlock asymmetric with
        ⟨absMax, bound, ofBlock⟩
      have close := abs_symmetric_sub_le config ofBlock isKept bound
      simp only [if_neg asymmetric, isScale]
      simpa only [exactOps, decide_eq_true_eq] using close

end Scales

/-! ## The result -/

/--
Only weights are read, each is in one block, and each is loaded with an error
of half the scale of its block at most.
-/
structure Accurate (param : Convolution2D K) (config : ModelConfig) : Prop where
  inBounds : ∀ i ∈ param.indicesRead config, i < param.weight.length
  partitions : (param.blocks config).flatten.Perm (List.range param.weight.length)
  loads :
    ∃ quan loaded, WeightQuantAndCoding config param = some quan ∧
        quan.load = some loaded ∧ loaded.length = param.weight.length ∧
          ∀ beginIndex ∈ param.beginIndices config,
            ∀ i ∈ readIndices beginIndex (param.block_size config), ∀ weight value,
                param.weight[i]? = some weight → loaded[i]? = some value →
                  |value - weight| ≤ (param.blockScale config beginIndex).1 / 2

/-- The scale of each block is zero, or it is not too small. -/
def HasScales (param : Convolution2D K) (config : ModelConfig) : Prop :=
  ∀ beginIndex ∈ param.beginIndices config, (param.blockScale config beginIndex).1 = 0 ∨
      1 / 1000000 < (param.blockScale config beginIndex).1

theorem Fits.accurate (fits : param.Fits config) (hasScales : param.HasScales config) :
    param.Accurate config := by
  have isInt := fits.1
  have covers := (fits_iff_covers isInt).mp fits
  have positive : 0 < param.block_size config := block_size_pos isInt
  rcases exists_channels isInt with ⟨-, -, isLength⟩
  have isCount :
      param.block_size config * param.kernelNum config =
        param.weight.length := by
    rw [isLength, ← covers, kernelNum, mul_comm, mul_assoc]
  have someRow : 0 < param.kernelNum config := by
    rw [pos_iff_ne_zero]
    intro none
    rw [none, mul_zero] at isCount
    exact Nat.lt_irrefl 0 (isCount ▸ param.weight_pos)
  have isBlocks := flatten_blocks covers positive
  rw [isCount] at isBlocks
  refine ⟨?_, ?_, ?_⟩
  · intro i isRead
    rw [indicesRead, isBlocks, isCount] at isRead
    rcases mem_append.mp isRead with isIn | isIn
    · exact mem_range.mp isIn
    · exact mem_range.mp isIn
  · rw [isBlocks]
  · rcases @load_encode K _ _ _ _ param.weightData (param.scales config)
          (param.block_size config) (param.kernelNum config)
          config.weightQuantAsymmetric config.clampMin config.bits
          (le_of_succ_le config.two_le_bits) config.bits_le_eight someRow
          positive (isCount ▸ isInt) (length_scales covers) with
      ⟨quan, loaded, isEncoded, isLoaded, hasLength, areWeights⟩
    have isQuan : WeightQuantAndCoding config param = some quan := by
      unfold WeightQuantAndCoding
      rw [if_neg, isEncoded]
      rw [weightSize_of_lt isInt]
      exact param.weight_pos.ne'
    refine ⟨quan, loaded, isQuan, isLoaded, hasLength.trans isCount, ?_⟩
    intro beginIndex isBegin i inBlock weight value isWeight isValue
    have isKept := hasScales beginIndex isBegin
    rw [beginIndices_eq covers] at isBegin
    rcases mem_map.mp isBegin with ⟨n, isBlock, rfl⟩
    rw [readIndices_eq positive] at inBlock
    rcases mem_map.mp inBlock with ⟨v, isPlace, rfl⟩
    rw [mem_range] at isBlock isPlace
    have close := abs_loaded_sub_le covers isQuan isBlock isPlace isKept
    rw [areWeights n isBlock v isPlace, Option.some.injEq] at isValue
    rw [isValue, weightData, getD_eq_getElem?_getD, isWeight] at close
    exact close

theorem Accurate.fits (accurate : param.Accurate config) : param.Fits config := by
  have isInt : param.weight.length < 2 ^ 31 := by
    rcases accurate.loads with ⟨quan, loaded, isQuan, isLoaded, hasLength, -⟩
    unfold WeightQuantAndCoding at isQuan
    split at isQuan
    · nomatch isQuan
    · rw [← hasLength]
      exact (length_of_load_encode (le_of_succ_le config.two_le_bits)
          config.bits_le_eight isQuan isLoaded).2
  rcases exists_channels isInt with ⟨-, -, isLength⟩
  have sameLength := accurate.partitions.length_eq
  rw [length_flatten_blocks (block_size_pos isInt), length_range, isLength,
    kernelNum, mul_comm, mul_assoc] at sameLength
  exact (fits_iff_covers isInt).mpr (Nat.eq_of_mul_eq_mul_left param.outputCount_pos sameLength)

/--
The quantisation of the weights is in bounds and accurate if and only if the
blocks that are counted by the input are those of the rows, and an `int` counts
the weights.
-/
theorem accurate_iff (hasScales : param.HasScales config) :
    param.Accurate config ↔ param.Fits config := by
  constructor
  · exact Accurate.fits
  · intro fits
    exact fits.accurate hasScales

/-- A row of two blocks of sixteen channels. -/
def twoBlocks : Convolution2D ℚ where
  inputCount := 32
  outputCount := 1
  kernelX := 1
  kernelY := 1
  weight := (List.range 32).map fun i => i
  outputCount_pos := by decide
  kernel_pos := by decide
  weight_pos := by decide
  dvd_length := by decide

theorem twoBlocks_accurate : twoBlocks.Accurate ⟨4, true, 16⟩ := by
  refine (accurate_iff ?_).mpr ⟨by decide, fun _ => by decide⟩
  have begins : twoBlocks.beginIndices ⟨4, true, 16⟩ = [0, 16] := by decide
  intro beginIndex isBegin
  rw [begins, mem_pair] at isBegin
  right
  rcases isBegin with rfl | rfl
  · decide +kernel
  · decide +kernel

/-- Two groups of sixteen channels; all weights are zero. -/
def twoGroups : Convolution2D ℚ where
  inputCount := 32
  outputCount := 2
  kernelX := 1
  kernelY := 1
  weight := List.replicate 32 0
  outputCount_pos := by decide
  kernel_pos := by decide
  weight_pos := by decide
  dvd_length := by decide

/-- The second group is read beyond its end. -/
theorem not_twoGroups_accurate :
    twoGroups.HasScales ⟨8, false, 16⟩ ∧ ¬twoGroups.Accurate ⟨8, false, 16⟩ := by
  constructor
  · have begins : twoGroups.beginIndices ⟨8, false, 16⟩ = [0, 16, 16, 32] := by
      decide
    intro beginIndex isBegin
    left
    have isOne : beginIndex = 0 ∨ beginIndex = 16 ∨ beginIndex = 32 := by
      simpa [begins] using isBegin
    rcases isOne with rfl | rfl | rfl
    · decide +kernel
    · decide +kernel
    · decide +kernel
  · intro accurate
    have isRead : 32 ∈ twoGroups.indicesRead ⟨8, false, 16⟩ := by decide
    exact absurd (accurate.inBounds 32 isRead) (by decide)

end Convolution2D

end Mnn.Converter.WeightQuant
