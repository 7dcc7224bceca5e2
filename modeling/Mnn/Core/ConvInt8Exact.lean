import Mnn.Core.ConvInt8Parameters
import Mnn.Foundation.Cutting

/-!
# Inline and external parameters of an int8 convolution

Codes and scales are the same wherever they are stored, and so is what `load` makes
of them.  But scales that lie in the operation as floats are handed out as they
are, and all others as `load` leaves them: with the least code moved into the
offsets and with the factor of the operation.  They agree exactly if there is
nothing to move and no factor.
-/

variable {file rest : List Byte} {i o : Nat}

namespace Mnn.Core.IDST

open Mnn.Foundation BitFields RawImages
open List
open Option

/-! ## Reading on -/

theorem read_extend {count : Nat} {bytes : List Byte}
    (isRead : read count file = some (bytes, rest)) (more : List Byte) :
    read count (file ++ more) = some (bytes, rest ++ more) := by
  unfold read at isRead ⊢
  split at isRead
  · next enough =>
    cases isRead
    have longer : count ≤ (file ++ more).length := by
      rw [length_append]
      exact Nat.le_add_right_of_le enough
    rw [if_pos longer, take_append_of_le_length enough, drop_append_of_le_length enough]
  · nomatch isRead

theorem ReadBlobDim_extend {useInt32 : Bool} {shape : List Nat}
    (isRead : ReadBlobDim useInt32 file = some (shape, rest)) (more : List Byte) :
    ReadBlobDim useInt32 (file ++ more) = some (shape, rest ++ more) := by
  unfold ReadBlobDim at isRead ⊢
  rcases bind_eq_some_iff.mp isRead with ⟨⟨uSize, behind⟩, first, isRead⟩
  rw [read_extend first more, bind_some]
  dsimp only at isRead ⊢
  split at isRead
  · next tooMany =>
    cases isRead
    rw [if_pos tooMany]
  · next fewDims =>
    rw [if_neg fewDims]
    rcases map_eq_some_iff.mp isRead with ⟨⟨dims, last⟩, second, isPair⟩
    cases isPair
    rw [read_extend second more, map_some]

theorem readIndex_extend {mode : LoadMode} {result : Int8Common} {samples : List Byte}
    {dataCnt : Nat} {decoded : Decoded}
    (isRead : readIndex mode result samples dataCnt file = some (decoded, rest))
    (more : List Byte) :
    readIndex mode result samples dataCnt (file ++ more) = some (decoded, rest ++ more) := by
  unfold readIndex at isRead ⊢
  rcases bind_eq_some_iff.mp isRead with ⟨⟨idxBuf, behind⟩, first, isRead⟩
  dsimp only at isRead ⊢
  rw [read_extend first more, bind_some]
  dsimp only
  split at isRead
  · next isByte =>
    rw [if_pos isByte]
    split at isRead
    · next toFloat =>
      cases isRead
      rw [if_pos toFloat]
    · next toCodes =>
      rw [if_neg toCodes]
      split at isRead
      · next four =>
        cases isRead
        rw [if_pos four]
      · next eight =>
        cases isRead
        rw [if_neg eight]
  · next isSplit =>
    rw [if_neg isSplit]
    rcases map_eq_some_iff.mp isRead with ⟨found, isFound, isPair⟩
    cases isPair
    rw [isFound, map_some]

theorem ReadQuanData_c_extend {mode : LoadMode} {shapeInt32 : Bool} {result : Int8Common}
    {decoded : Decoded} (isRead : ReadQuanData_c mode shapeInt32 result file = some (decoded, rest))
    (more : List Byte) :
    ReadQuanData_c mode shapeInt32 result (file ++ more) = some (decoded, rest ++ more) := by
  unfold ReadQuanData_c at isRead ⊢
  rcases bind_eq_some_iff.mp isRead with ⟨⟨shape, behind⟩, dims, isRead⟩
  rw [ReadBlobDim_extend dims more, bind_some]
  dsimp only at isRead ⊢
  split at isRead
  · next noShape =>
    cases isRead
    rw [if_pos noShape]
  · next hasShape =>
    rw [if_neg hasShape]
    rcases bind_eq_some_iff.mp isRead with ⟨⟨sampleCnt, behind⟩, count, isRead⟩
    rw [read_extend count more, bind_some]
    rcases bind_eq_some_iff.mp isRead with ⟨⟨samples, behind⟩, values, isRead⟩
    rw [read_extend values more, bind_some]
    exact readIndex_extend isRead more

variable {K : Type} {reading : Readings K}

/-! ## Quantised convolutions -/

/-- A convolution with quantised weights, wherever they are stored. -/
structure WeightQuantised (reading : Readings K) where
  conv : ConvInfo K
  quan : QuanInfo K
  buffer : List Byte
  /-- The scales, if they are stored as floats. -/
  alpha : List (BitVec 32)
  /-- The scales, if they are stored as halves. -/
  alphaFp16 : List (BitVec 16)

namespace WeightQuantised

variable (stored : WeightQuantised reading)

def floats : List K :=
  match stored.quan.scaleStorage with
  | .FP32 => stored.alpha.map reading.single
  | .FP16 => stored.alphaFp16.map reading.half

def alphaBytes : List Byte :=
  match stored.quan.scaleStorage with
  | .FP32 => image stored.alpha
  | .FP16 => image stored.alphaFp16

/-- The scales, as they are when they have been read. -/
def loaded : LoadedAlpha K :=
  match stored.quan.scaleStorage with
  | .FP32 => { alpha := some stored.floats, alphaSize := stored.floats.length }
  | .FP16 => { alphaHalf := some stored.alphaFp16, alphaSize := stored.floats.length }

/-- Codes and scales in the operation. -/
def inlined : Op K where
  main :=
    { stored.conv with
      quanParameter :=
        { stored.quan with
          buffer := some stored.buffer
          alpha := if stored.quan.scaleStorage = .FP32 then some stored.alpha else none
          alphaFp16 := if stored.quan.scaleStorage = .FP16 then some stored.alphaFp16 else none } }

/-- Codes and scales in a file, between other bytes; `sizes` are those of other parameters. -/
def externalised (front back : List Byte) (sizes : List Nat) : Op K where
  main :=
    { stored.conv with
      quanParameter := { stored.quan with }
      external := some (front.length :: stored.buffer.length :: stored.alphaBytes.length :: sizes) }
  externalPath := some (front ++ (stored.buffer ++ (stored.alphaBytes ++ back)))

variable {stored}

/-! ## What is fetched -/

theorem fetchInline_inlined :
    fetchInline reading stored.inlined.main.quanParameter =
      some { buffer_ptr := some stored.buffer, loaded := stored.loaded } := by
  unfold fetchInline inlined loaded floats
  cases storage : stored.quan.scaleStorage with
  | FP32 => simp
  | FP16 => simp

theorem length_alphaBytes :
    stored.alphaBytes.length =
      stored.floats.length * if stored.quan.scaleStorage = .FP16 then 2 else 4 := by
  unfold alphaBytes floats
  cases storage : stored.quan.scaleStorage with
  | FP32 => exact (length_image _).trans (by rw [length_map]; rfl)
  | FP16 => exact (length_image _).trans (by rw [length_map]; rfl)

theorem externalElementCount_alphaBytes (few : stored.floats.length ≤ INT_MAX) :
    externalElementCount stored.alphaBytes.length
        (if stored.quan.scaleStorage = .FP16 then 2 else 4) =
      some stored.floats.length := by
  rw [length_alphaBytes]
  generalize widthEq : (if stored.quan.scaleStorage = .FP16 then 2 else 4) = width
  have pos : 0 < width := by
    rw [← widthEq]
    split <;> decide
  have checked :
      ¬(stored.floats.length * width % width ≠ 0 ∨
        stored.floats.length * width / width > INT_MAX) := by
    rw [Nat.mul_mod_left, Nat.mul_div_cancel _ pos]
    rintro (notZero | many)
    · exact notZero rfl
    · exact not_lt.mpr few many
  rw [externalElementCount, if_neg checked, Nat.mul_div_cancel _ pos]

theorem readAlpha_alphaBytes (some : stored.floats ≠ []) (back : List Byte) :
    readAlpha reading stored.quan stored.floats.length (stored.alphaBytes ++ back) =
      .some stored.loaded := by
  have notZero : stored.floats.length ≠ 0 := fun isZero => some (length_eq_zero_iff.mp isZero)
  rw [readAlpha, if_neg notZero]
  unfold loaded floats alphaBytes
  cases storage : stored.quan.scaleStorage with
  | FP32 =>
    have bytes : 4 * stored.alpha.length = (image stored.alpha).length := by
      rw [length_image, mul_comm]
      rfl
    have values := ofImages_image stored.alpha []
    rw [append_nil] at values
    simp only [length_map]
    rw [bytes, read_append rfl, map_some, values]
  | FP16 =>
    have bytes : 2 * stored.alphaFp16.length = (image stored.alphaFp16).length := by
      rw [length_image, mul_comm]
      rfl
    have values := ofImages_image stored.alphaFp16 []
    rw [append_nil] at values
    simp only [length_map]
    rw [bytes, read_append rfl, map_some, values]

/-! ## What is loaded -/

variable [Field K] [LinearOrder K] [IsStrictOrderedRing K] [FloorRing K]

variable (stored) in
/-- What the codes are decoded from, if they are in memory. -/
def fetched : Fetched K where
  buffer_ptr := some stored.buffer
  loaded := { alpha := some stored.floats, alphaSize := stored.floats.length }

variable (stored) in
/-- There are codes, which can be decoded, and scales; vectors have less than 2³¹ elements. -/
structure Valid : Prop where
  someBuffer : stored.buffer ≠ []
  someWeight : stored.conv.weightCount ≠ 0
  someScale : stored.floats ≠ []
  fewScales : stored.floats.length ≤ INT_MAX
  decodes :
    ∃ decoded, decodeWeight stored.quan stored.fetched = some (some decoded) ∧ decoded.blob ≠ none ∧
        (stored.quan.type = .idstQuanInt8 → decoded.len ≠ 0 ∧
            ReadQuanData_c stored.quan.int8Mode stored.quan.shapeInt32 {} stored.buffer =
              some (decoded, []))

variable {backend : Backend} {front back : List Byte} {sizes : List Nat}

/-- What is fetched from a file: the dense codes are decoded at once. -/
theorem fetchExternal_externalised (valid : stored.Valid) (notCached : ¬backend.useCachedMmap)
    (isFile : front.length + stored.buffer.length + stored.alphaBytes.length ≤ INT64_MAX) :
    ∃ fetched, fetchExternal reading backend (stored.externalised front back sizes) = some fetched ∧
        fetched.loaded = stored.loaded ∧
        ∀ loaded, decodeWeight stored.quan { fetched with loaded := loaded } =
          decodeWeight stored.quan { stored.fetched with loaded := loaded } := by
  have notEmpty : stored.buffer.length ≠ 0 :=
    fun isZero => valid.someBuffer (length_eq_zero_iff.mp isZero)
  have behindFront :
      (front ++ (stored.buffer ++ (stored.alphaBytes ++ back))).drop front.length =
        stored.buffer ++ (stored.alphaBytes ++ back) :=
    drop_left
  unfold fetchExternal externalised
  dsimp only
  rw [externalElementCount_alphaBytes valid.fewScales, bind_some,
    if_neg (not_lt.mpr isFile), if_neg notCached, bind_some, behindFront]
  by_cases dense : stored.quan.type = .idstQuanInt8
  · rcases valid.decodes with ⟨decoded, isDecoded, -, ofDense⟩
    rcases ofDense dense with ⟨someCode, isRead⟩
    have isReadOn := ReadQuanData_c_extend isRead (stored.alphaBytes ++ back)
    rw [nil_append] at isReadOn
    refine ⟨{ buffer := some decoded, weightLength := decoded.len, loaded := stored.loaded },
      ?_, rfl, ?_⟩
    · rw [if_pos ⟨notEmpty, dense⟩, isReadOn, bind_some]
      dsimp only
      rw [if_neg someCode, readAlpha_alphaBytes valid.someScale, map_some]
    · intro loaded
      simp only [decodeWeight, dense, fetched, if_neg someCode, if_true, bind_some,
        isRead, map_some]
  · refine ⟨{ buffer_ptr := some stored.buffer, loaded := stored.loaded }, ?_, rfl, ?_⟩
    · rw [if_neg (not_and_of_not_right _ dense), if_pos notEmpty, read_append rfl, bind_some]
      dsimp only
      rw [readAlpha_alphaBytes valid.someScale, map_some]
    · intro loaded
      rfl

/-- Only the scales that were fetched and the codes they belong to matter. -/
theorem loadFetched_congr {quan : QuanInfo K} {first second : Fetched K}
    (sameLoaded : first.loaded = second.loaded)
    (sameCodes :
      ∀ loaded, decodeWeight quan { first with loaded := loaded } =
        decodeWeight quan { second with loaded := loaded }) :
    loadFetched reading backend quan first = loadFetched reading backend quan second := by
  cases first with
  | mk buffer_ptr buffer weightLength loaded =>
    cases second with
    | mk buffer_ptr' buffer' weightLength' loaded' =>
      cases sameLoaded
      have codes (changed : LoadedAlpha K) := sameCodes changed
      unfold loadFetched
      by_cases converted : ¬backend.cpuFamily ∨ quan.type = .idstSparseQuan
      · simp only [if_pos converted, codes]
      · simp only [if_neg converted]
        rw [codes loaded]

theorem loadInt8_inlined :
    loadInt8 reading backend stored.inlined = loadFetched reading backend stored.quan
        { buffer_ptr := some stored.buffer, loaded := stored.loaded } := by
  have isInline : ¬(USE_EXTERNAL_DATA stored.inlined.main = true ∧
      (stored.inlined.externalPath.isSome = true ∨ backend.useCachedMmap = true) ∧
        stored.inlined.main.quanParameter.buffer = none) := by
    rintro ⟨isExternal, -⟩
    nomatch isExternal
  rw [loadInt8]
  rw [if_neg isInline, fetchInline_inlined, bind_some]
  rfl

theorem loadInt8_externalised :
    loadInt8 reading backend (stored.externalised front back sizes) =
      (fetchExternal reading backend (stored.externalised front back sizes)).bind
        (loadFetched reading backend stored.quan) := by
  have isExternal :
      USE_EXTERNAL_DATA (stored.externalised front back sizes).main = true ∧
        ((stored.externalised front back sizes).externalPath.isSome = true ∨
            backend.useCachedMmap = true) ∧
          (stored.externalised front back sizes).main.quanParameter.buffer = none :=
    ⟨rfl, Or.inl rfl, rfl⟩
  rw [loadInt8]
  rw [if_pos isExternal]
  rfl

variable (back sizes) in
/-- The same is loaded from a file, unless there is a cache instead of it. -/
theorem loadInt8_same (valid : stored.Valid) (notCached : ¬backend.useCachedMmap) (isFile :
      front.length + stored.buffer.length + stored.alphaBytes.length ≤ INT64_MAX) :
    loadInt8 reading backend (stored.externalised front back sizes) =
      loadInt8 reading backend stored.inlined := by
  rcases @fetchExternal_externalised _ _ _ _ _ _ _ backend front back sizes valid notCached
      isFile with ⟨fetched, isFetched, sameLoaded, sameCodes⟩
  rw [loadInt8_inlined, loadInt8_externalised, isFetched, bind_some]
  exact loadFetched_congr sameLoaded sameCodes

end WeightQuantised

/-! ## Scales as floats -/

variable {alpha floats beta : List K} {loaded : LoadedAlpha K}

section Floats

variable [Field K] [LinearOrder K] [IsStrictOrderedRing K]

/-- The scales stand for these floats, whether they have been converted or not. -/
def LoadedAlpha.IsFloats (reading : Readings K) (loaded : LoadedAlpha K) (floats : List K) :
    Prop :=
  (loaded.getAlphaFloat reading).alpha = some floats ∧ loaded.alphaSize = floats.length

omit [Field K] [LinearOrder K] [IsStrictOrderedRing K] in
theorem LoadedAlpha.isFloats_some {alphaHalf : Option (List (BitVec 16))}
    {alphaSize : Nat} (sameSize : alphaSize = alpha.length) :
    IsFloats reading { alpha := some alpha, alphaHalf, alphaSize } alpha :=
  ⟨rfl, sameSize⟩

omit [Field K] [LinearOrder K] [IsStrictOrderedRing K] in
/-- Converting sets `alpha`, and changes nothing that the scales stand for. -/
theorem LoadedAlpha.IsFloats.converted (areFloats : loaded.IsFloats reading floats) :
    (loaded.getAlphaFloat reading) = { loaded with alpha := some floats } := by
  rcases areFloats with ⟨isAlpha, -⟩
  cases loaded with
  | mk alpha alphaHalf alphaSize =>
    cases alpha with
    | some alpha =>
      cases isAlpha
      rfl
    | none =>
      cases alphaHalf with
      | some halves =>
        cases isAlpha
        rfl
      | none => nomatch isAlpha

namespace QuanInfo

variable (quan : QuanInfo K)

/-- The scales behind `load`. -/
def scaled (alpha : List K) : List K :=
  let folded :=
    if quan.asymmetric ∧ quan.clampMin < 0 then quan.foldMin (alpha.length / 2) alpha
    else alpha
  if quan.extraFactor ≠ 1 then folded.map (· * quan.extraFactor) else folded

variable {quan}

omit [LinearOrder K] [IsStrictOrderedRing K] in
@[simp]
theorem length_foldMin (outputCount : Nat) (alpha : List K) :
    (quan.foldMin outputCount alpha).length = alpha.length := by
  rw [foldMin, length_mapIdx]

omit [IsStrictOrderedRing K] in
theorem isFloats_scaleAlpha (areFloats : loaded.IsFloats reading floats) :
    (quan.scaleAlpha reading loaded).IsFloats reading (quan.scaled floats) := by
  have sameSize := areFloats.2
  unfold scaleAlpha scaled
  rw [areFloats.converted, sameSize]
  generalize foldedEq : (if quan.asymmetric = true ∧ quan.clampMin < 0 then
      quan.foldMin (floats.length / 2) floats else floats) = folded
  have isFolded : LoadedAlpha.IsFloats reading (if quan.asymmetric = true ∧ quan.clampMin < 0 then
          { loaded with
            alpha := some (quan.foldMin (floats.length / 2) floats)
            alphaSize := floats.length }
        else
          loaded) folded := by
    subst foldedEq
    split_ifs
    · exact LoadedAlpha.isFloats_some (length_foldMin _ _).symm
    · exact areFloats
  dsimp only [map_some]
  by_cases hasFactor : quan.extraFactor ≠ 1
  · rw [if_pos hasFactor, if_pos hasFactor, isFolded.converted, map_some]
    exact LoadedAlpha.isFloats_some (isFolded.2.trans (length_map _).symm)
  · rw [if_neg hasFactor, if_neg hasFactor]
    exact isFolded

omit [LinearOrder K] [IsStrictOrderedRing K] in
theorem foldMin_getD (outputCount : Nat) (inside : i < alpha.length) :
    (quan.foldMin outputCount alpha).getD i 0 =
      if i % 2 = 0 ∧ i / 2 < outputCount then
        alpha.getD i 0 - quan.clampMin * alpha.getD (i + 1) 0
      else
        alpha.getD i 0 := by
  have value : alpha.getD i 0 = alpha[i] := getD_eq_getElem _ _ inside
  rw [foldMin, getD_eq_getElem?_getD, getElem?_mapIdx, getElem?_eq_getElem inside,
    map_some, getD_some, value]

omit [IsStrictOrderedRing K] in
@[simp]
theorem length_scaled (alpha : List K) : (quan.scaled alpha).length = alpha.length := by
  unfold scaled
  dsimp only
  split_ifs <;> simp

omit [IsStrictOrderedRing K] in
theorem scaled_getD (inside : i < alpha.length) :
    (quan.scaled alpha).getD i 0 =
      (if quan.asymmetric ∧ quan.clampMin < 0 ∧ i % 2 = 0 ∧ i / 2 < alpha.length / 2 then
        alpha.getD i 0 - quan.clampMin * alpha.getD (i + 1) 0
      else
        alpha.getD i 0) * quan.extraFactor := by
  unfold scaled
  generalize foldedEq : (if quan.asymmetric = true ∧ quan.clampMin < 0 then
      quan.foldMin (alpha.length / 2) alpha else alpha) = folded
  have isFolded :
      folded.getD i 0 =
        if quan.asymmetric ∧ quan.clampMin < 0 ∧ i % 2 = 0 ∧ i / 2 < alpha.length / 2 then
          alpha.getD i 0 - quan.clampMin * alpha.getD (i + 1) 0
        else
          alpha.getD i 0 := by
    subst foldedEq
    by_cases folds : quan.asymmetric = true ∧ quan.clampMin < 0
    · rw [if_pos folds, foldMin_getD _ inside]
      simp only [folds.1, folds.2, true_and]
    · rw [if_neg folds, if_neg fun all => folds ⟨all.1, all.2.1⟩]
  dsimp only
  rw [← isFolded]
  by_cases hasFactor : quan.extraFactor ≠ 1
  · have isMap :
        (folded.map (· * quan.extraFactor)).getD i (0 * quan.extraFactor) =
          folded.getD i 0 * quan.extraFactor :=
      getD_map folded 0 _
    rw [zero_mul] at isMap
    rw [if_pos hasFactor, isMap]
  · rw [if_neg hasFactor, not_not.mp hasFactor, mul_one]

end QuanInfo

/-! ## What is assigned -/

theorem pairs_inj {X : Type} {first second first' second' : Nat → X} (count : Nat) :
    ((List.range count).flatMap fun i => [first i, second i]) =
        ((List.range count).flatMap fun i => [first' i, second' i]) ↔
      ∀ i < count, first i = first' i ∧ second i = second' i := by
  refine (Cutting.flatMap_eq_iff ?_).trans ?_
  · exact fun _ _ => Nat.le_refl 2
  · simp only [mem_range, cons.injEq, and_true]

/-- How many of the scales are handed out. -/
def usedScales (weightAsy : Bool) (count : Nat) : Nat :=
  if weightAsy then 2 * (count / 2) else count

omit [LinearOrder K] [IsStrictOrderedRing K] in
theorem scaleWrites_inj (weightAsy : Bool) (ocUpHp : Nat)
    (sameLength : alpha.length = beta.length) :
    scaleWrites weightAsy ocUpHp alpha = scaleWrites weightAsy ocUpHp beta ↔
      ∀ i < usedScales weightAsy alpha.length, alpha.getD i 0 = beta.getD i 0 := by
  cases weightAsy with
  | true =>
    simp only [scaleWrites, usedScales, if_true, ← sameLength]
    rw [pairs_inj]
    constructor
    · intro same i inside
      rcases Nat.even_or_odd' i with ⟨o, rfl | rfl⟩
      · exact (Prod.mk.inj (same o (by omega)).2).2
      · exact (Prod.mk.inj (same o (by omega)).1).2
    · intro same o inside
      exact ⟨by rw [same (2 * o + 1) (by omega)], by rw [same (2 * o) (by omega)]⟩
  | false =>
    simp only [scaleWrites, usedScales, Bool.false_eq_true, if_false]
    constructor
    · intro same i inside
      have inside' : i < beta.length := sameLength ▸ inside
      have value := congrArg (fun list => list[i]?) same
      simp only [getElem?_mapIdx, getElem?_eq_getElem inside,
        getElem?_eq_getElem inside', map_some, some.injEq] at value
      rw [getD_eq_getElem _ _ inside, getD_eq_getElem _ _ inside']
      exact (Prod.mk.inj value).2
    · intro same
      congr 1
      apply ext_getElem sameLength
      intro i inside inside'
      have value := same i inside
      rw [getD_eq_getElem _ _ inside, getD_eq_getElem _ _ inside'] at value
      exact value

namespace QuanInfo

variable {quan : QuanInfo K} {alpha : List K}

omit [LinearOrder K] [IsStrictOrderedRing K] in
theorem fixed_iff {value factor : K} : value = value * factor ↔ (factor ≠ 1 → value = 0) := by
  constructor
  · intro same hasFactor
    have product : value * (factor - 1) = 0 := by linear_combination -same
    exact (mul_eq_zero.mp product).resolve_right (sub_ne_zero.mpr hasFactor)
  · intro zero
    by_cases hasFactor : factor = 1
    · rw [hasFactor, mul_one]
    · rw [zero hasFactor, zero_mul]

variable (quan alpha) in
/--
Where a least code would be moved, the scales are zero, and where there is a factor,
everything is.
-/
def NothingToScale : Prop :=
  (quan.asymmetric → quan.clampMin < 0 → ∀ o < alpha.length / 2, alpha.getD (2 * o + 1) 0 = 0) ∧
    (quan.extraFactor ≠ 1 → ∀ i < usedScales quan.asymmetric alpha.length, alpha.getD i 0 = 0)

omit [IsStrictOrderedRing K] in
theorem scaled_odd (inside : 2 * o + 1 < alpha.length) :
    (quan.scaled alpha).getD (2 * o + 1) 0 = alpha.getD (2 * o + 1) 0 * quan.extraFactor := by
  have isOdd : ¬(2 * o + 1) % 2 = 0 := by omega
  rw [scaled_getD inside, if_neg fun all => isOdd all.2.2.1]

omit [IsStrictOrderedRing K] in
theorem scaled_even (isAsymmetric : quan.asymmetric = true) (inside : o < alpha.length / 2) :
    (quan.scaled alpha).getD (2 * o) 0 = (if quan.clampMin < 0 then
        alpha.getD (2 * o) 0 - quan.clampMin * alpha.getD (2 * o + 1) 0
      else
        alpha.getD (2 * o) 0) * quan.extraFactor := by
  have isEven : 2 * o % 2 = 0 := Nat.mul_mod_right 2 o
  have half : 2 * o / 2 = o := Nat.mul_div_cancel_left o Nat.two_pos
  rw [scaled_getD (by omega)]
  simp only [isAsymmetric, isEven, half, inside, true_and, and_true]

/-- `load` leaves the scales as they are exactly if there is nothing to do. -/
theorem scaled_same_iff :
    (∀ i < usedScales quan.asymmetric alpha.length, alpha.getD i 0 = (quan.scaled alpha).getD i 0) ↔
      quan.NothingToScale alpha := by
  unfold NothingToScale usedScales
  cases isAsymmetric : quan.asymmetric with
  | false =>
    simp only [Bool.false_eq_true, if_false, false_implies, true_and]
    constructor
    · intro same hasFactor i inside
      have value := same i inside
      rw [scaled_getD inside, if_neg (by rw [isAsymmetric]; simp)] at value
      exact fixed_iff.mp value hasFactor
    · intro zero i inside
      rw [scaled_getD inside, if_neg (by rw [isAsymmetric]; simp)]
      exact fixed_iff.mpr fun hasFactor => zero hasFactor i inside
  | true =>
    simp only [if_true, true_implies]
    constructor
    · intro same
      have scales (o : Nat) (inside : o < alpha.length / 2) :
          alpha.getD (2 * o + 1) 0 = alpha.getD (2 * o + 1) 0 * quan.extraFactor := by
        rw [← scaled_odd (by omega)]
        exact same (2 * o + 1) (by omega)
      have offsets (o : Nat) (inside : o < alpha.length / 2) := same (2 * o) (by omega)
      have noScale (isLeast : quan.clampMin < 0) (o : Nat) (inside : o < alpha.length / 2) :
          alpha.getD (2 * o + 1) 0 = 0 := by
        by_cases hasFactor : quan.extraFactor = 1
        · have offset := offsets o inside
          rw [scaled_even isAsymmetric inside, if_pos isLeast, hasFactor, mul_one] at offset
          have product : (quan.clampMin : K) * alpha.getD (2 * o + 1) 0 = 0 := by
            linear_combination offset
          exact (mul_eq_zero.mp product).resolve_left (Int.cast_ne_zero.mpr isLeast.ne)
        · exact fixed_iff.mp (scales o inside) hasFactor
      refine ⟨noScale, ?_⟩
      intro hasFactor i inside
      rcases Nat.even_or_odd' i with ⟨o, rfl | rfl⟩
      · have half : o < alpha.length / 2 := by omega
        have offset := offsets o half
        have scale := fixed_iff.mp (scales o half) hasFactor
        rw [scaled_even isAsymmetric half, scale, mul_zero, sub_zero, ite_self] at offset
        exact fixed_iff.mp offset hasFactor
      · exact fixed_iff.mp (scales o (by omega)) hasFactor
    · rintro ⟨noScale, zero⟩ i inside
      rcases Nat.even_or_odd' i with ⟨o, rfl | rfl⟩
      · have half : o < alpha.length / 2 := by omega
        rw [scaled_even isAsymmetric half]
        split_ifs with isLeast
        · rw [noScale isLeast o half, mul_zero, sub_zero]
          exact fixed_iff.mpr fun hasFactor => zero hasFactor _ inside
        · exact fixed_iff.mpr fun hasFactor => zero hasFactor _ inside
      · rw [scaled_odd (by omega)]
        exact fixed_iff.mpr fun hasFactor => zero hasFactor _ inside

end QuanInfo

end Floats

namespace WeightQuantised

variable {stored : WeightQuantised reading}

theorem isFloats_loaded : stored.loaded.IsFloats reading stored.floats := by
  unfold loaded
  cases storage : stored.quan.scaleStorage with
  | FP32 => exact LoadedAlpha.isFloats_some rfl
  | FP16 =>
    refine ⟨?_, rfl⟩
    unfold floats
    rw [storage]
    rfl

variable (stored) in
theorem isFloats_fetched (backend : Backend) :
    ∃ loaded : LoadedAlpha K, (if ¬backend.cpuFamily ∨ stored.quan.type = .idstSparseQuan then
          { buffer_ptr := some stored.buffer, loaded := stored.loaded.getAlphaFloat reading }
        else
          { buffer_ptr := some stored.buffer, loaded := stored.loaded } : Fetched K) =
        { buffer_ptr := some stored.buffer, loaded := loaded } ∧
        loaded.IsFloats reading stored.floats ∧
          (stored.quan.type = .idstSparseQuan → loaded.alpha = some stored.floats) := by
  have areFloats := stored.isFloats_loaded
  split_ifs with converts
  · refine ⟨_, rfl, ?_, fun _ => areFloats.1⟩
    rw [areFloats.converted]
    exact LoadedAlpha.isFloats_some areFloats.2
  · exact ⟨_, rfl, areFloats, fun sparse => absurd (Or.inr sparse) converts⟩

end WeightQuantised

/-! ## What is handed out -/

section Parameters

variable [Field K] [LinearOrder K] [IsStrictOrderedRing K] [FloorRing K]
  {stored : WeightQuantised reading} {backend : Backend} {front back : List Byte}
  {sizes : List Nat} {ocUpHp : Nat}

namespace WeightQuantised

variable (stored) in
/-- The scales of an old model are there, and are taken before all others. -/
def HasOldScale : Prop :=
  ∃ old bias scale,
    stored.conv.symmetricQuan = some old ∧ old.bias = some bias ∧ old.scale = some scale

theorem decodeWeight_eq (areFloats : loaded.IsFloats reading stored.floats)
    (converted : stored.quan.type = .idstSparseQuan → loaded.alpha = some stored.floats) :
    decodeWeight stored.quan { buffer_ptr := some stored.buffer, loaded := loaded } =
      decodeWeight stored.quan stored.fetched := by
  cases type : stored.quan.type with
  | idstQuanInt8 => simp only [decodeWeight, type, fetched]
  | idstSparseQuan =>
    simp only [decodeWeight, type, fetched, converted type, areFloats.2, getD_some]
  | weightInt8 => simp only [decodeWeight, type, fetched]

/-- What `load` makes of codes and scales in the operation, without a cache. -/
theorem loadInt8_eq (valid : stored.Valid) (notCached : ¬backend.useCachedMmap) :
    ∃ weight weightSize loaded, loadInt8 reading backend stored.inlined =
          some
            { weight := some weight, weightSize, asymmetric := stored.quan.asymmetric
              loaded } ∧
        loaded.IsFloats reading (stored.quan.scaled stored.floats) := by
  rcases valid.decodes with ⟨decoded, isDecoded, hasBlob, -⟩
  rcases ne_none_iff_exists'.mp hasBlob with ⟨weight, isBlob⟩
  rcases stored.isFloats_fetched backend with
    ⟨loaded, isFetched, areFloats, converted⟩
  refine ⟨weight, decoded.len, _, ?_, QuanInfo.isFloats_scaleAlpha areFloats⟩
  rw [loadInt8_inlined, loadFetched]
  dsimp only
  rw [isFetched, decodeWeight_eq areFloats converted, isDecoded, bind_some,
    if_neg notCached, bind_some, if_neg hasBlob, isBlob]
  rfl

section

variable {weight : List Byte} {weightSize : Nat} {loaded : LoadedAlpha K} {scaled : List K}

theorem getConvInt8Parameters_inlined (isLoaded :
      loadInt8 reading backend stored.inlined =
        some { weight := some weight, weightSize, asymmetric := stored.quan.asymmetric, loaded })
    (areFloats : loaded.IsFloats reading scaled) :
    getConvInt8Parameters reading backend ocUpHp stored.inlined =
      scaleAndBias stored.conv weight weightSize stored.quan.asymmetric ocUpHp
        (some (if stored.quan.scaleStorage = .FP32 then stored.floats else scaled)) := by
  have hasBuffer :
      stored.inlined.main.quanParameter.buffer.isSome = true ∨
        stored.inlined.main.external.isSome = true :=
    Or.inl rfl
  rw [getConvInt8Parameters, if_pos hasBuffer, isLoaded]
  dsimp only
  rw [areFloats.1]
  unfold inlined floats
  cases storage : stored.quan.scaleStorage with
  | FP32 => rfl
  | FP16 => rfl

theorem getConvInt8Parameters_externalised (isLoaded :
      loadInt8 reading backend (stored.externalised front back sizes) =
        some { weight := some weight, weightSize, asymmetric := stored.quan.asymmetric, loaded })
    (areFloats : loaded.IsFloats reading scaled) :
    getConvInt8Parameters reading backend ocUpHp (stored.externalised front back sizes) =
      scaleAndBias stored.conv weight weightSize stored.quan.asymmetric ocUpHp (some scaled) := by
  have isExternal :
      (stored.externalised front back sizes).main.quanParameter.buffer.isSome = true ∨
        (stored.externalised front back sizes).main.external.isSome = true :=
    Or.inr rfl
  rw [getConvInt8Parameters, if_pos isExternal, isLoaded]
  dsimp only
  rw [areFloats.1]
  rfl

end

omit [LinearOrder K] [IsStrictOrderedRing K] [FloorRing K] in
/-- What is handed out tells scales apart, unless an old model has its own. -/
theorem scaleAndBias_inj (weight : List Byte) (weightSize : Nat) (weightAsy : Bool)
    (sameLength : alpha.length = beta.length) :
    scaleAndBias stored.conv weight weightSize weightAsy ocUpHp (some alpha) =
        scaleAndBias stored.conv weight weightSize weightAsy ocUpHp (some beta) ↔
      stored.HasOldScale ∨
        ∀ i < usedScales weightAsy alpha.length, alpha.getD i 0 = beta.getD i 0 := by
  rw [← scaleWrites_inj weightAsy ocUpHp sameLength]
  unfold scaleAndBias
  split
  · next bias scale isBias isScale =>
    rcases bind_eq_some_iff.mp isBias with ⟨old, isOld, hasBias⟩
    rw [isOld, bind_some] at isScale
    exact iff_of_true rfl (Or.inl ⟨old, bias, scale, isOld, hasBias, isScale⟩)
  · next noOld =>
    have notOld : ¬stored.HasOldScale := by
      rintro ⟨old, bias, scale, isOld, hasBias, hasScale⟩
      refine noOld bias scale ?_ ?_
      · rw [isOld, bind_some, hasBias]
      · rw [isOld, bind_some, hasScale]
    rw [or_iff_right notOld, Except.ok.injEq, Int8Parameters.mk.injEq]
    simp only [true_and, and_true]

/-- The condition under which codes and scales may be stored in either way. -/
def StoredAlike (stored : WeightQuantised reading) (backend : Backend) : Prop :=
  if backend.useCachedMmap then
    -- There are no codes then, and their absence is only reported for dense codes.
    stored.quan.type = .idstQuanInt8
  else
    stored.quan.scaleStorage = .FP16 ∨ stored.HasOldScale ∨ stored.quan.NothingToScale stored.floats

/-- Codes that are not there are only missed if they would have to be read. -/
theorem cached_externalised (valid : stored.Valid) (cached : backend.useCachedMmap) (isFile :
      front.length + stored.buffer.length + stored.alphaBytes.length ≤ INT64_MAX) :
    getConvInt8Parameters reading backend ocUpHp (stored.externalised front back sizes) =
      .error (if stored.quan.type = .idstQuanInt8 then .noWeight else .notLoaded) := by
  have isExternal :
      (stored.externalised front back sizes).main.quanParameter.buffer.isSome = true ∨
        (stored.externalised front back sizes).main.external.isSome = true :=
    Or.inr rfl
  have isFetched :
      fetchExternal reading backend (stored.externalised front back sizes) =
        some
          { weightLength := stored.conv.weightCount
            loaded := { alphaSize := stored.floats.length } } := by
    unfold fetchExternal externalised
    dsimp only
    rw [externalElementCount_alphaBytes valid.fewScales, bind_some,
      if_neg (not_lt.mpr isFile), if_pos cached]
  rw [getConvInt8Parameters, if_pos isExternal, loadInt8_externalised, isFetched,
    bind_some, loadFetched]
  have codes (loaded : LoadedAlpha K) :
      decodeWeight stored.quan { weightLength := stored.conv.weightCount, loaded := loaded } =
        if stored.quan.type = .idstQuanInt8 then some none else none := by
    cases type : stored.quan.type with
    | idstQuanInt8 => simp [decodeWeight, type, valid.someWeight]
    | idstSparseQuan => simp [decodeWeight, type]
    | weightInt8 => simp [decodeWeight, type]
  have decoded : decodeWeight stored.quan
          (if ¬backend.cpuFamily ∨ stored.quan.type = .idstSparseQuan then
            { weightLength := stored.conv.weightCount
              loaded := LoadedAlpha.getAlphaFloat reading { alphaSize := stored.floats.length } }
          else
            { weightLength := stored.conv.weightCount
              loaded := { alphaSize := stored.floats.length } }) =
        if stored.quan.type = .idstQuanInt8 then some none else none := by
    by_cases converts : ¬backend.cpuFamily ∨ stored.quan.type = .idstSparseQuan
    · rw [if_pos converts]
      exact codes _
    · rw [if_neg converts]
      exact codes _
  dsimp only
  rw [decoded]
  by_cases dense : stored.quan.type = .idstQuanInt8
  · have notCopied : ¬stored.quan.type = .weightInt8 := by
      rw [dense]
      decide
    rw [if_pos dense, if_pos dense, bind_some, if_pos cached, if_neg notCopied]
    rfl
  · rw [if_neg dense, if_neg dense]
    rfl

omit [LinearOrder K] [IsStrictOrderedRing K] [FloorRing K] in
theorem exists_scaleAndBias (conv : ConvInfo K) (weight : List Byte) (weightSize : Nat)
    (weightAsy : Bool) (alpha : List K) :
    ∃ parameters,
      scaleAndBias conv weight weightSize weightAsy ocUpHp (some alpha) = .ok parameters := by
  unfold scaleAndBias
  split
  · exact ⟨_, rfl⟩
  · exact ⟨_, rfl⟩

/-- With a cache, codes in the operation are taken only if they are not encoded. -/
theorem cached_inlined (valid : stored.Valid) (cached : backend.useCachedMmap) :
    if stored.quan.type = .weightInt8 then
      ∃ parameters, getConvInt8Parameters reading backend ocUpHp stored.inlined = .ok parameters
    else
      getConvInt8Parameters reading backend ocUpHp stored.inlined = .error .noWeight := by
  rcases valid.decodes with ⟨decoded, isDecoded, hasBlob, -⟩
  rcases ne_none_iff_exists'.mp hasBlob with ⟨weight, isBlob⟩
  rcases stored.isFloats_fetched backend with ⟨loaded, isFetched, areFloats, converted⟩
  by_cases type : stored.quan.type = .weightInt8
  · have isLoaded :
        loadInt8 reading backend stored.inlined =
          some
            { weight := some weight, weightSize := decoded.len
              asymmetric := stored.quan.asymmetric, loaded := loaded } := by
      rw [loadInt8_inlined, loadFetched]
      dsimp only
      rw [isFetched, decodeWeight_eq areFloats converted, isDecoded, bind_some,
        if_pos cached, if_pos type, bind_some, isBlob]
      rfl
    rw [if_pos type, getConvInt8Parameters_inlined isLoaded areFloats]
    exact exists_scaleAndBias _ _ _ _ _
  · have isLoaded :
        loadInt8 reading backend stored.inlined =
          some
            { weight := none, weightSize := 0, asymmetric := stored.quan.asymmetric
              loaded := loaded } := by
      rw [loadInt8_inlined, loadFetched]
      dsimp only
      rw [isFetched, decodeWeight_eq areFloats converted, isDecoded, bind_some,
        if_pos cached, if_neg type]
      rfl
    have hasBuffer :
        stored.inlined.main.quanParameter.buffer.isSome = true ∨
          stored.inlined.main.external.isSome = true :=
      Or.inl rfl
    rw [if_neg type, getConvInt8Parameters, if_pos hasBuffer, isLoaded]

theorem getConvInt8Parameters_cached (valid : stored.Valid) (cached : backend.useCachedMmap)
    (isFile : front.length + stored.buffer.length + stored.alphaBytes.length ≤ INT64_MAX) :
    getConvInt8Parameters reading backend ocUpHp stored.inlined =
        getConvInt8Parameters reading backend ocUpHp (stored.externalised front back sizes) ↔
      stored.quan.type = .idstQuanInt8 := by
  have inline := @cached_inlined _ _ _ _ _ _ stored backend ocUpHp valid cached
  rw [cached_externalised valid cached isFile]
  cases type : stored.quan.type with
  | idstQuanInt8 =>
    rw [type, if_neg (by decide)] at inline
    rw [inline]
    simp
  | idstSparseQuan =>
    rw [type, if_neg (by decide)] at inline
    rw [inline]
    simp
  | weightInt8 =>
    rw [type, if_pos rfl] at inline
    rcases inline with ⟨parameters, isOk⟩
    rw [isOk]
    simp

/--
Weights, scales and offsets are the same, wherever codes and scales are stored, exactly
under this condition.
-/
theorem getConvInt8Parameters_same_iff (stored : WeightQuantised reading)
    (valid : stored.Valid) (backend : Backend) (ocUpHp : Nat) (front back : List Byte)
    (sizes : List Nat)
    (isFile : front.length + stored.buffer.length + stored.alphaBytes.length ≤ INT64_MAX) :
    getConvInt8Parameters reading backend ocUpHp stored.inlined =
        getConvInt8Parameters reading backend ocUpHp (stored.externalised front back sizes) ↔
      stored.StoredAlike backend := by
  unfold StoredAlike
  by_cases cached : backend.useCachedMmap
  · rw [if_pos cached]
    exact getConvInt8Parameters_cached valid cached isFile
  · rw [if_neg cached]
    rcases loadInt8_eq valid cached with ⟨weight, weightSize, loaded, isLoaded, areFloats⟩
    have isLoadedSame := (loadInt8_same back sizes valid cached isFile).trans isLoaded
    rw [getConvInt8Parameters_inlined isLoaded areFloats,
      getConvInt8Parameters_externalised isLoadedSame areFloats]
    cases storage : stored.quan.scaleStorage with
    | FP16 => simp
    | FP32 =>
      have sameLength : stored.floats.length = (stored.quan.scaled stored.floats).length :=
        (QuanInfo.length_scaled _).symm
      rw [if_pos rfl, scaleAndBias_inj _ _ _ sameLength, QuanInfo.scaled_same_iff]
      simp

theorem valid_of_roundTrips {values : List Int}
    (roundTrips : RoundTrips (some (stored.buffer, stored.quan.shapeInt32)) values)
    (isDense : stored.quan.type = .idstQuanInt8) (someValue : values ≠ [])
    (someWeight : stored.conv.weightCount ≠ 0) (someScale : stored.floats ≠ [])
    (fewScales : stored.floats.length ≤ INT_MAX) : stored.Valid := by
  rcases roundTrips with ⟨bytes, shapeInt32, isWritten, comesBack⟩
  cases isWritten
  rcases comesBack stored.quan.int8Mode [] with
    ⟨decoded, weights, isDecoded, isWeights, isTaken⟩
  rw [append_nil] at isDecoded
  rcases map_eq_some_iff.mp isWeights with ⟨blob, isBlob, rfl⟩
  have someCode : decoded.len ≠ 0 := by
    intro noCode
    rw [noCode, take_zero] at isTaken
    dsimp only at isTaken
    rw [flatMap_nil, map_nil, ite_self, take_nil] at isTaken
    exact someValue isTaken.symm
  have someBuffer : stored.buffer ≠ [] := by
    intro noBuffer
    rw [noBuffer] at isDecoded
    nomatch isDecoded
  have hasBlob : decoded.blob ≠ none := by
    rw [isBlob]
    exact some_ne_none _
  refine ⟨someBuffer, someWeight, someScale, fewScales, decoded, ?_, hasBlob, ?_⟩
  · simp only [decodeWeight, isDense, fetched, if_true, bind_some, isDecoded,
      map_some]
  · exact fun _ => ⟨someCode, isDecoded⟩

end WeightQuantised

end Parameters

/-! ## One convolution -/

/-- The numbers zero and one. -/
def oneReading : Readings ℚ where
  single bits := if bits = 0x3f800000 then 1 else 0
  half bits := if bits = 0x3c00 then 1 else 0

/-- One weight with the offset zero and the scale one, whose least code is moved. -/
def oneWeight : WeightQuantised oneReading where
  conv := { outputCount := 1, weightCount := 1 }
  quan := { type := .weightInt8, quantScale := 1, aMin := -128, readType := 1 }
  buffer := [5]
  alpha := [0, 0x3f800000]
  alphaFp16 := []

theorem oneWeight_valid : oneWeight.Valid where
  someBuffer := cons_ne_nil _ _
  someWeight := one_ne_zero
  someScale := cons_ne_nil _ _
  fewScales := by decide
  decodes := ⟨_, rfl, some_ne_none _, nofun⟩

theorem oneWeight_differs :
    ¬∀ (stored : WeightQuantised oneReading), stored.Valid →
        ∀ (backend : Backend) (ocUpHp : Nat) (front back : List Byte) (sizes : List Nat),
          front.length + stored.buffer.length + stored.alphaBytes.length ≤ INT64_MAX →
            getConvInt8Parameters oneReading backend ocUpHp stored.inlined =
              getConvInt8Parameters oneReading backend ocUpHp
                (stored.externalised front back sizes) := by
  intro claimed
  have same :=
    claimed oneWeight oneWeight_valid { cpuFamily := true, useCachedMmap := false } 4 [] [] []
      (by decide)
  revert same
  decide +kernel

/-- Halves are converted before they are handed out. -/
def oneHalf : WeightQuantised oneReading where
  conv := { outputCount := 1, weightCount := 1 }
  quan :=
    { type := .weightInt8, quantScale := 1, aMin := -128, readType := 1, scaleStorage := .FP16 }
  buffer := [5]
  alpha := []
  alphaFp16 := [0, 0x3c00]

theorem oneHalf_valid : oneHalf.Valid where
  someBuffer := cons_ne_nil _ _
  someWeight := one_ne_zero
  someScale := cons_ne_nil _ _
  fewScales := by decide
  decodes := ⟨_, rfl, some_ne_none _, nofun⟩

theorem getConvInt8Parameters_same_iff_oneHalf :
    oneHalf.Valid ∧
      ([] : List Byte).length + oneHalf.buffer.length + oneHalf.alphaBytes.length ≤ INT64_MAX ∧
        (getConvInt8Parameters oneReading { cpuFamily := true, useCachedMmap := false } 4
              oneHalf.inlined =
            getConvInt8Parameters oneReading { cpuFamily := true, useCachedMmap := false } 4
              (oneHalf.externalised [] [] []) ↔
          oneHalf.StoredAlike { cpuFamily := true, useCachedMmap := false }) :=
  ⟨oneHalf_valid, by decide,
    WeightQuantised.getConvInt8Parameters_same_iff oneHalf oneHalf_valid _ 4 [] [] [] (by decide)⟩

end Mnn.Core.IDST
