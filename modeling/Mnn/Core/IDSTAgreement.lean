import Mnn.Core.IDSTEntries

/-!
# When the sparse and the dense form agree

What the sparse form denotes is worked out for each weight, and compared with
what the dense form denotes.
-/

namespace Mnn.Core.IDST

open Mnn.Foundation.BitFields
open List
open Nat

section Agreement

variable {F : Type} (ops : FloatOps F) (kernel : Kernel) (tensor : FloatTensor F) (bits : Nat)

/-! ## The sparse weights -/

/-- What the sparse encoder rounds a weight to. -/
def sparseValue (i : Nat) : Int :=
  tensor.quantise ops bits id (i / kernel.area) (tensor.weightData i)

/-- What it rounds zero to. -/
def sparseZero (i : Nat) : Int := tensor.zeroQuant ops bits (i / kernel.area)

/-- The step width that the sparse encoder chooses. -/
def bestMaxStep : BestMaxStep := GetBestMaxStep (sparseValue ops kernel tensor bits)
    (sparseZero ops kernel tensor bits) (kernel.area * kernel.channel) bits

def maxStep : Nat := 2 ^ (bestMaxStep ops kernel tensor bits).iMaxStepBits - 1

/-- The sparse form has an entry for the weight. -/
def Stored (i : Nat) : Prop := HasEntry (sparseValue ops kernel tensor bits)
    (sparseZero ops kernel tensor bits) (maxStep ops kernel tensor bits) i

instance : DecidablePred (Stored ops kernel tensor bits) := fun i =>
  inferInstanceAs (Decidable (HasEntry _ _ _ i))

variable (stored : F → F) (alpha_size : Nat)

/--
What the decoder sets the weights of a channel to at first.  It reads the
scales as they are stored, as pairs if there are two for each channel.
-/
def background (channel : Nat) : Int :=
  if alpha_size = 2 * kernel.channel then
    { tensor with
        alphaData := fun i => stored (tensor.alphaData i)
        asymmetricQuantFlag := true }.zeroQuant ops bits channel
  else
    0

/-- A weight of the sparse form. -/
def sparseWeight (i : Nat) : Int :=
  if Stored ops kernel tensor bits i then
    storedValue bits (sparseValue ops kernel tensor bits i)
  else
    (BitVec.ofInt 8 (background ops kernel tensor bits stored alpha_size (i / kernel.area))).toInt

variable {ops kernel tensor bits stored alpha_size}

theorem cast_maxStep :
    ((maxStep ops kernel tensor bits : Nat) : Int) =
      2 ^ (bestMaxStep ops kernel tensor bits).iMaxStepBits - 1 := by
  have positive : 1 ≤ 2 ^ (bestMaxStep ops kernel tensor bits).iMaxStepBits := Nat.one_le_two_pow
  rw [maxStep, cast_sub positive, cast_pow]
  rfl

/-- What is known about the width, once there are entries. -/
structure Chosen
    (ops : FloatOps F) (kernel : Kernel) (tensor : FloatTensor F)
    (bits : Nat) : Prop where
  least : 2 ≤ (bestMaxStep ops kernel tensor bits).iMaxStepBits
  most : (bestMaxStep ops kernel tensor bits).iMaxStepBits ≤ 8
  positive : 0 < maxStep ops kernel tensor bits
  small : maxStep ops kernel tensor bits < 256
  count :
    (bestMaxStep ops kernel tensor bits).best_nnz =
      (entryPlaces (sparseValue ops kernel tensor bits)
        (sparseZero ops kernel tensor bits) (maxStep ops kernel tensor bits) 0
        (kernel.area * kernel.channel)).length

theorem chosen_of_entries (entries : (bestMaxStep ops kernel tensor bits).best_nnz ≠ 0) :
    Chosen ops kernel tensor bits := by
  rcases GetBestMaxStep_spec (sparseValue ops kernel tensor bits)
        (sparseZero ops kernel tensor bits) (kernel.area * kernel.channel)
        bits with
    none | ⟨least, most, count⟩
  · exact absurd none entries
  · have atLeast : 2 ^ 2 ≤ 2 ^ (bestMaxStep ops kernel tensor bits).iMaxStepBits :=
      Nat.pow_le_pow_right (by decide) least
    have atMost : 2 ^ (bestMaxStep ops kernel tensor bits).iMaxStepBits ≤ 2 ^ 8 :=
      Nat.pow_le_pow_right (by decide) most
    have positive : 0 < maxStep ops kernel tensor bits := by
      unfold maxStep
      omega
    refine ⟨least, most, positive, ?_, ?_⟩
    · unfold maxStep
      omega
    · rw [← GetSparsity_eq positive, cast_maxStep]
      exact count

theorem fillBackground_eq (positive : 1 ≤ kernel.channel) :
    fillBackground ops (fun i => stored (tensor.alphaData i)) alpha_size
        kernel.channel [kernel.channel, kernel.area].prod bits =
      some ((List.range (kernel.area * kernel.channel)).map fun i =>
          BitVec.ofInt 8 (background ops kernel tensor bits stored alpha_size
              (i / kernel.area))) := by
  have size : [kernel.channel, kernel.area].prod = kernel.channel * kernel.area := prod_pair ..
  unfold fillBackground background
  by_cases pairs : alpha_size = 2 * kernel.channel
  · have area : [kernel.channel, kernel.area].prod / kernel.channel =
        kernel.area := by
      rw [size]
      exact Nat.mul_div_cancel_left _ positive
    rw [if_pos pairs, if_neg (ne_of_gt positive)]
    simp only [area, if_pos pairs]
    have rows := flatMap_rows kernel.area kernel.channel fun channel _ =>
        BitVec.ofInt 8 ({ tensor with
              alphaData := fun i => stored (tensor.alphaData i)
              asymmetricQuantFlag := true }.zeroQuant ops bits channel)
    simp only [map_const', length_range] at rows
    exact congrArg some rows
  · rw [if_neg pairs, size]
    simp only [if_neg pairs]
    rw [map_const', length_range, mul_comm]
    rfl

/-! ## Writing -/

/-- The weights that have an entry. -/
def places (ops : FloatOps F) (kernel : Kernel) (tensor : FloatTensor F) (bits : Nat) : List Nat :=
  entryPlaces (sparseValue ops kernel tensor bits)
    (sparseZero ops kernel tensor bits) (maxStep ops kernel tensor bits) 0
    (kernel.area * kernel.channel)

/-- The steps from entry to entry. -/
def steps (ops : FloatOps F) (kernel : Kernel) (tensor : FloatTensor F) (bits : Nat) : List Byte :=
  (places ops kernel tensor bits).map fun p =>
    BitVec.ofNat 8 (p - lastEntry (sparseValue ops kernel tensor bits)
          (sparseZero ops kernel tensor bits) (maxStep ops kernel tensor bits)
          p)

/-- The indices of the entries' values. -/
def indices (ops : FloatOps F) (kernel : Kernel) (tensor : FloatTensor F)
    (bits : Nat) : List Byte :=
  (places ops kernel tensor bits).map fun p =>
    mapWeight (weightSet bits) (sparseValue ops kernel tensor bits p)

theorem entries_eq (chosen : Chosen ops kernel tensor bits) :
    entriesFrom (sparseValue ops kernel tensor bits) (sparseZero ops kernel tensor bits)
        (2 ^ (bestMaxStep ops kernel tensor bits).iMaxStepBits - 1)
        (kernel.area * kernel.channel) 0 0 =
      (places ops kernel tensor bits).map fun p =>
        (p - lastEntry (sparseValue ops kernel tensor bits) (sparseZero ops kernel tensor bits)
              (maxStep ops kernel tensor bits) p,
          sparseValue ops kernel tensor bits p) := by
  rw [← cast_maxStep]
  exact entriesFrom_eq chosen.positive (kernel.area * kernel.channel) 0

theorem step_lt (chosen : Chosen ops kernel tensor bits) {step : Byte}
    (isIn : step ∈ steps ops kernel tensor bits) :
    step.toNat < 2 ^ (bestMaxStep ops kernel tensor bits).iMaxStepBits := by
  rcases mem_map.mp isIn with ⟨p, -, rfl⟩
  have short := @sub_lastEntry_le (sparseValue ops kernel tensor bits)
      (sparseZero ops kernel tensor bits) (maxStep ops kernel tensor bits)
      chosen.positive p
  have isMax :
      maxStep ops kernel tensor bits < 2 ^ (bestMaxStep ops kernel tensor bits).iMaxStepBits :=
    Nat.sub_lt (Nat.two_pow_pos _) Nat.one_pos
  rw [BitVec.toNat_ofNat]
  exact lt_of_le_of_lt (mod_le ..) (lt_of_le_of_lt short isMax)

/-- The sparse encoder, in terms of the step width and the entries. -/
theorem WriteSparseQuanBlobs_eq
    (positive : 1 ≤ bits) (isInt : kernel.area * kernel.channel < 2 ^ 31)
    {best : BestMaxStep} (isBest : bestMaxStep ops kernel tensor bits = best)
    {entries : List (Nat × Int)}
    (isEntries : entriesFrom (sparseValue ops kernel tensor bits)
          (sparseZero ops kernel tensor bits) (2 ^ best.iMaxStepBits - 1)
          (kernel.area * kernel.channel) 0 0 =
        entries) :
    WriteSparseQuanBlobs ops kernel tensor bits =
      if best.best_nnz ≤ 0 then
        some none
      else if entries.length ≠ best.best_nnz then
        none
      else
        (FillBuffer (bytesOf (best.iMaxStepBits * best.best_nnz))
            (entries.map fun entry => BitVec.ofNat 8 entry.1) best.iMaxStepBits).bind
          fun buf =>
            (FillBuffer (bytesOf (bits * best.best_nnz))
                (entries.map fun entry => mapWeight (weightSet bits) entry.2)
                bits).map fun data_buf =>
              some ((WriteBlobDim [kernel.channel, kernel.area]).1 ++ toBytes 4 best.best_nnz ++
                    BitVec.ofNat 8 best.iMaxStepBits ::
                    buf ++ BitVec.ofNat 8 (weightSet bits).length ::
                    linearSamples bits ++ data_buf,
                  (WriteBlobDim [kernel.channel, kernel.area]).2) := by
  subst isBest isEntries
  unfold WriteSparseQuanBlobs
  simp only [needBits_weightSet positive, Kernel.weightSize_of_lt isInt, Option.bind_some]
  rfl

theorem sparse_invalid (positive : 1 ≤ bits) (isInt : kernel.area * kernel.channel < 2 ^ 31)
    (none_stored : (bestMaxStep ops kernel tensor bits).best_nnz = 0) :
    WriteSparseQuanBlobs ops kernel tensor bits = some none := by
  rw [WriteSparseQuanBlobs_eq positive isInt rfl rfl]
  exact if_pos (le_of_eq none_stored)

theorem sparse_written (positive : 1 ≤ bits) (small : bits ≤ 8)
    (isInt : kernel.area * kernel.channel < 2 ^ 31)
    (entries : (bestMaxStep ops kernel tensor bits).best_nnz ≠ 0) :
    ∃ buf data_buf, buf.length = bytesOf ((bestMaxStep ops kernel tensor bits).iMaxStepBits *
              (bestMaxStep ops kernel tensor bits).best_nnz) ∧
        Packs (bestMaxStep ops kernel tensor bits).iMaxStepBits (steps ops kernel tensor bits) buf ∧
          data_buf.length = bytesOf (bits * (bestMaxStep ops kernel tensor bits).best_nnz) ∧
            Packs bits (indices ops kernel tensor bits) data_buf ∧
              WriteSparseQuanBlobs ops kernel tensor bits =
                some (some ((WriteBlobDim [kernel.channel, kernel.area]).1 ++ toBytes 4
                          (bestMaxStep ops kernel tensor bits).best_nnz ++
                        BitVec.ofNat 8 (bestMaxStep ops kernel tensor bits).iMaxStepBits ::
                        buf ++ BitVec.ofNat 8 (weightSet bits).length ::
                        linearSamples bits ++ data_buf,
                      (WriteBlobDim [kernel.channel, kernel.area]).2)) := by
  have chosen := chosen_of_entries entries
  have count : (places ops kernel tensor bits).length =
      (bestMaxStep ops kernel tensor bits).best_nnz := chosen.count.symm
  have few := chosen.least
  rcases @FillBuffer_packs (steps ops kernel tensor bits) _ (by omega) chosen.most
        (bytesOf ((bestMaxStep ops kernel tensor bits).iMaxStepBits *
            (bestMaxStep ops kernel tensor bits).best_nnz))
        (by
          rw [steps, length_map, count, bytesOf, mul_comm]
          omega)
        (fun _ isIn => step_lt chosen isIn) with
    ⟨buf, isBuf, bufLength, bufPacks⟩
  rcases @FillBuffer_packs (indices ops kernel tensor bits) bits positive small
        (bytesOf (bits * (bestMaxStep ops kernel tensor bits).best_nnz))
        (by
          rw [indices, length_map, count, bytesOf, mul_comm]
          omega)
        (by
          intro index isIn
          rcases mem_map.mp isIn with ⟨p, -, rfl⟩
          exact mapWeight_lt positive _) with
    ⟨data_buf, isData, dataLength, dataPacks⟩
  refine ⟨buf, data_buf, bufLength, bufPacks, dataLength, dataPacks, ?_⟩
  have sameSteps : (((places ops kernel tensor bits).map fun p =>
            (p - lastEntry (sparseValue ops kernel tensor bits) (sparseZero ops kernel tensor bits)
                  (maxStep ops kernel tensor bits) p,
              sparseValue ops kernel tensor bits p)).map
          fun entry => BitVec.ofNat 8 entry.1) =
        steps ops kernel tensor bits := by
    rw [map_map]
    rfl
  have sameIndices : (((places ops kernel tensor bits).map fun p =>
            (p - lastEntry (sparseValue ops kernel tensor bits) (sparseZero ops kernel tensor bits)
                  (maxStep ops kernel tensor bits) p,
              sparseValue ops kernel tensor bits p)).map
          fun entry => mapWeight (weightSet bits) entry.2) =
        indices ops kernel tensor bits := by
    rw [map_map]
    rfl
  rw [WriteSparseQuanBlobs_eq positive isInt rfl (entries_eq chosen),
    if_neg (by omega), length_map, if_neg (by omega), sameSteps,
    sameIndices, isBuf, Option.bind_some, isData]
  rfl

theorem setWeights_entries (positive : 1 ≤ bits) (small : bits ≤ 8)
    (chosen : Chosen ops kernel tensor bits) (hasOutput : Bool) (alpha_size : Nat) :
    setWeights hasOutput (rankedMap (linearSamples bits))
        ((steps ops kernel tensor bits).zip (indices ops kernel tensor bits)) 0
        ((List.range (kernel.area * kernel.channel)).map fun i =>
          BitVec.ofInt 8 (background ops kernel tensor bits stored alpha_size (i / kernel.area))) =
      some (some ((List.range (kernel.area * kernel.channel)).map fun i =>
            if Stored ops kernel tensor bits i then
              BitVec.ofInt 8 (storedValue bits (sparseValue ops kernel tensor bits i))
            else
              BitVec.ofInt 8 (background ops kernel tensor bits stored alpha_size
                  (i / kernel.area)))) := by
  rcases @setWeights_spec (sparseValue ops kernel tensor bits)
        (sparseZero ops kernel tensor bits) (maxStep ops kernel tensor bits)
        hasOutput (rankedMap (linearSamples bits))
        (fun p =>
          mapWeight (weightSet bits) (sparseValue ops kernel tensor bits p))
        (fun p =>
          BitVec.ofInt 8 (storedValue bits (sparseValue ops kernel tensor bits p)))
        (fun p => FindInMap_mapWeight positive small _) chosen.positive
        chosen.small (kernel.area * kernel.channel) 0
        ((List.range (kernel.area * kernel.channel)).map fun i =>
          BitVec.ofInt 8 (background ops kernel tensor bits stored alpha_size (i / kernel.area)))
        (by rw [length_map, length_range, zero_add]) with
    ⟨weights, isWeights, sameLength, atPlace⟩
  have isZip :
      (steps ops kernel tensor bits).zip (indices ops kernel tensor bits) =
        (places ops kernel tensor bits).map fun p =>
          (BitVec.ofNat 8 (p - lastEntry (sparseValue ops kernel tensor bits)
                  (sparseZero ops kernel tensor bits)
                  (maxStep ops kernel tensor bits) p),
            mapWeight (weightSet bits) (sparseValue ops kernel tensor bits p)) :=
    zip_map' ..
  rw [isZip]
  refine isWeights.trans (congrArg (some ∘ some) ?_)
  apply ext_getElem?
  intro p
  rw [atPlace p, getElem?_map, getElem?_map]
  by_cases inside : p < kernel.area * kernel.channel
  · rw [getElem?_range inside, Option.map_some, Option.map_some]
    by_cases isStored : Stored ops kernel tensor bits p
    · rw [if_pos isStored, if_pos ⟨Nat.zero_le p, (Nat.zero_add _).symm ▸ inside, isStored⟩]
    · rw [if_neg isStored, if_neg fun has => isStored has.2.2]
  · have noPlace : (List.range (kernel.area * kernel.channel))[p]? = none := by
      rw [List.getElem?_eq_none_iff, length_range]
      exact Nat.le_of_not_lt inside
    rw [noPlace, if_neg fun has =>
      inside ((zero_add (kernel.area * kernel.channel)) ▸ has.2.1)]
    rfl

theorem sparse_reads (positive : 1 ≤ bits) (small : bits ≤ 8)
    (isInt : kernel.area * kernel.channel < 2 ^ 31)
    (entries : (bestMaxStep ops kernel tensor bits).best_nnz ≠ 0)
    (stored : F → F) (alpha_size : Nat) :
    ∃ bytes shapeInt32, WriteSparseQuanBlobs ops kernel tensor bits =
          some (some (bytes, shapeInt32)) ∧
        ∀ (hasOutput : Bool) (file : List Byte), ∃ decoded,
            ReadSparseQuanData_c ops hasOutput shapeInt32
                (fun i => stored (tensor.alphaData i)) alpha_size {}
                (bytes ++ file) =
              some (decoded, file) ∧
            decoded.weights =
              some ((List.range (kernel.area * kernel.channel)).map
                  (sparseWeight ops kernel tensor bits stored alpha_size)) := by
  have chosen := chosen_of_entries entries
  have fewEntries :
      (bestMaxStep ops kernel tensor bits).best_nnz ≤ kernel.area * kernel.channel := by
    rw [chosen.count]
    exact length_entryPlaces_le ..
  have some_channels : 1 ≤ kernel.channel :=
    Nat.pos_of_mul_pos_left (Nat.lt_of_lt_of_le (Nat.pos_of_ne_zero entries) fewEntries)
  have few := chosen.least
  rcases sparse_written positive small isInt entries with
    ⟨buf, data_buf, bufLength, bufPacks, dataLength, dataPacks, isWritten⟩
  refine ⟨_, _, isWritten, ?_⟩
  intro hasOutput file
  have dims : ∀ dim ∈ [kernel.channel, kernel.area], dim < 2 ^ 31 := by
    intro dim isIn
    rcases mem_pair.mp isIn with rfl | rfl
    · exact kernel.channel_lt
    · exact kernel.area_lt
  have fewDims : [kernel.channel, kernel.area].length ≤ 4 :=
    show 2 ≤ 4 by decide
  have isCount :
      ofBytes (toBytes 4 (bestMaxStep ops kernel tensor bits).best_nnz) =
        (bestMaxStep ops kernel tensor bits).best_nnz :=
    ofBytes_toBytes (by omega)
  have isWidth : ofBytes [BitVec.ofNat 8 (bestMaxStep ops kernel tensor bits).iMaxStepBits] =
        (bestMaxStep ops kernel tensor bits).iMaxStepBits := by
    have most := chosen.most
    rw [ofBytes_single, BitVec.toNat_ofNat]
    exact mod_eq_of_lt (by omega)
  have countSteps :
      (steps ops kernel tensor bits).length = (bestMaxStep ops kernel tensor bits).best_nnz :=
    (length_map ..).trans chosen.count.symm
  have countIndices :
      (indices ops kernel tensor bits).length = (bestMaxStep ops kernel tensor bits).best_nnz :=
    (length_map ..).trans chosen.count.symm
  have isSteps := bufPacks.split (by omega) chosen.most
  have isIndices := dataPacks.split positive small
  rw [countSteps] at isSteps
  rw [countIndices] at isIndices
  have isSet : SimpleRank ((linearSamples bits).foldl InsertSimpleSet []) = linearSamples bits := by
    rw [foldl_InsertSimpleSet (nodup_linearSamples small)
        (length_linearSamples_le positive small), nil_append,
      SimpleRank_linearSamples small]
  have isDataWidth : needBits (linearSamples bits).length = bits := by
    rw [length_linearSamples positive, ← length_weightSet positive, needBits_weightSet positive]
  unfold ReadSparseQuanData_c
  simp only [append_assoc, cons_append,
    ReadBlobDim_WriteBlobDim fewDims dims, Option.bind_some, head?_cons,
    read_append (length_toBytes 4 _), isCount, read_one, isWidth,
    read_append bufLength, isSteps, sampleCnt_linearSamples positive small,
    read_append rfl, isSet, isDataWidth, read_append dataLength, isIndices,
    fillBackground_eq some_channels, setWeights_entries positive small chosen,
    Option.map_some]
  refine ⟨_, rfl, ?_⟩
  have isTaken (blob : List Byte) (hasLength : blob.length = kernel.area * kernel.channel) :
      blob.take [kernel.channel, kernel.area].prod = blob := by
    apply take_of_length_le
    rw [hasLength, mul_comm]
    exact le_of_eq (prod_pair ..).symm
  simp only [Decoded.weights, Option.map_some, Option.isSome_some, if_true,
    Bool.false_eq_true, if_false]
  rw [isTaken _ (by rw [length_map, length_range]), map_map]
  refine congrArg some (map_congr_left ?_)
  intro i isIn
  unfold sparseWeight
  by_cases isStored : Stored ops kernel tensor bits i
  · rw [if_pos isStored, Function.comp_apply, if_pos isStored]
    exact toInt_ofInt_inRange small (inRange_storedValue bits _)
  · rw [if_neg isStored, Function.comp_apply, if_neg isStored]

/-! ## Comparing the forms -/

theorem clamp_of_inRange {value : Int} (inRange : InRange bits value) :
    clamp bits value = value := by
  rcases inRange with ⟨least, most⟩
  unfold clamp
  omega

/-- The dense encoder limits what the sparse encoder rounds to. -/
theorem quantise_clamp (channel : Nat) (weight : F) :
    tensor.quantise ops bits (clamp bits) channel weight =
      clamp bits (tensor.quantise ops bits id channel weight) := by
  unfold FloatTensor.quantise
  split
  · simp only
    split
    · rfl
    · exact (clamp_of_inRange (inRange_minValue bits)).symm
  · simp only
    split
    · rfl
    · exact (clamp_of_inRange (inRange_zero bits)).symm

theorem storedValue_eq_clamp_iff (value : Int) :
    storedValue bits value = clamp bits value ↔ value ≤ maxValue bits := by
  have half : 0 < 2 ^ (bits - 1) := Nat.two_pow_pos _
  unfold storedValue
  by_cases inRange : InRange bits value
  · rw [if_pos inRange]
    exact iff_of_true (clamp_of_inRange inRange).symm inRange.2
  · rw [if_neg inRange]
    unfold InRange at inRange
    unfold clamp
    unfold minValue maxValue at *
    constructor
    · intro same
      omega
    · intro most
      omega

/-- The forms denote the same weights if they do so at each place. -/
theorem denseValues_eq_iff :
    denseValues ops kernel tensor bits = (List.range (kernel.area * kernel.channel)).map
          (sparseWeight ops kernel tensor bits stored alpha_size) ↔
      ∀ i < kernel.area * kernel.channel,
        if Stored ops kernel tensor bits i then
          sparseValue ops kernel tensor bits i ≤ maxValue bits
        else
          (BitVec.ofInt 8 (background ops kernel tensor bits stored alpha_size
                (i / kernel.area))).toInt =
            clamp bits (sparseZero ops kernel tensor bits i) := by
  rw [denseValues, map_inj_left]
  refine forall_congr' fun i => ?_
  rw [mem_range, quantise_clamp]
  refine imp_congr_right fun _ => eq_comm.trans ?_
  show _ = clamp bits (sparseValue ops kernel tensor bits i) ↔ _
  unfold sparseWeight
  by_cases isStored : Stored ops kernel tensor bits i
  · rw [if_pos isStored, if_pos isStored]
    exact storedValue_eq_clamp_iff _
  · have isZero : sparseValue ops kernel tensor bits i = sparseZero ops kernel tensor bits i := by
      by_contra differs
      exact isStored (Or.inl differs)
    rw [if_neg isStored, if_neg isStored, isZero]

/--
Both encoders write, and if there is a sparse form, then it denotes the same
weights as the dense form.
-/
def Agree (ops : FloatOps F) (kernel : Kernel) (tensor : FloatTensor F) (bits : Nat)
    (stored : F → F) (alpha_size : Nat) : Prop :=
  ∃ dense shapeInt32 sparse, WriteCQBlobs ops kernel tensor bits = some (dense, shapeInt32) ∧
      WriteSparseQuanBlobs ops kernel tensor bits = some sparse ∧ ∀ bytes shapeInt32',
          sparse = some (bytes, shapeInt32') →
            ∀ (mode : LoadMode) (hasOutput : Bool) (file file' : List Byte),
              ∃ decoded decoded' weights, ReadQuanData_c mode shapeInt32 {} (dense ++ file) =
                    some (decoded, file) ∧
                  ReadSparseQuanData_c ops hasOutput shapeInt32'
                      (fun i => stored (tensor.alphaData i)) alpha_size {}
                      (bytes ++ file') =
                    some (decoded', file') ∧
                  decoded.weights = some weights ∧ decoded'.weights =
                      some (weights.take (kernel.area * kernel.channel))

/-- Where the number of weights is an `int`, both encoders write. -/
theorem agree_iff_of_isInt (positive : 1 ≤ bits) (small : bits ≤ 8)
    (isInt : kernel.area * kernel.channel < 2 ^ 31) :
    Agree ops kernel tensor bits stored alpha_size ↔
      (bestMaxStep ops kernel tensor bits).best_nnz = 0 ∨
        denseValues ops kernel tensor bits = (List.range (kernel.area * kernel.channel)).map
          (sparseWeight ops kernel tensor bits stored alpha_size) := by
  rcases WriteCQBlobs_roundTrips ops tensor positive small isInt with
    ⟨dense, shapeInt32, isDense, denseReads⟩
  have count : (denseValues ops kernel tensor bits).length = kernel.area * kernel.channel := by
    rw [denseValues, length_map, length_range]
  by_cases entries : (bestMaxStep ops kernel tensor bits).best_nnz = 0
  · refine iff_of_true ?_ (Or.inl entries)
    refine ⟨dense, shapeInt32, none, isDense, sparse_invalid positive isInt entries, ?_⟩
    exact fun _ _ impossible => nomatch impossible
  · rw [or_iff_right entries]
    rcases @sparse_reads F ops kernel tensor bits positive small isInt entries
          stored alpha_size with
      ⟨bytes, shapeInt32', isSparse, sparseReads⟩
    constructor
    · rintro ⟨dense', shapeInt32'', sparse, isDense', isSparse', reads⟩
      rw [isDense] at isDense'
      obtain ⟨rfl, rfl⟩ := Prod.mk.inj (Option.some.inj isDense')
      rw [isSparse] at isSparse'
      obtain rfl := Option.some.inj isSparse'
      let mode : LoadMode := ⟨true, true, true, true⟩
      rcases reads bytes shapeInt32' rfl mode true [] [] with
        ⟨decoded, decoded', weights, isDecoded, isDecoded', isWeights, isWeights'⟩
      rcases denseReads mode [] with
        ⟨other, values, isOther, isValues, areValues⟩
      rw [isDecoded] at isOther
      obtain ⟨rfl, -⟩ := Prod.mk.inj (Option.some.inj isOther)
      rw [isWeights] at isValues
      obtain rfl := Option.some.inj isValues
      rcases sparseReads true [] with ⟨other', isOther', areSparse⟩
      rw [isDecoded'] at isOther'
      obtain ⟨rfl, -⟩ := Prod.mk.inj (Option.some.inj isOther')
      rw [isWeights'] at areSparse
      rw [count] at areValues
      exact areValues.symm.trans (Option.some.inj areSparse)
    · intro same
      refine ⟨dense, shapeInt32, _, isDense, isSparse, ?_⟩
      intro bytes' shapeInt32'' isSome mode hasOutput file file'
      obtain ⟨rfl, rfl⟩ := Prod.mk.inj (Option.some.inj isSome)
      rcases denseReads mode file with
        ⟨decoded, weights, isDecoded, isWeights, areValues⟩
      rcases sparseReads hasOutput file' with
        ⟨decoded', isDecoded', areSparse⟩
      rw [count] at areValues
      refine ⟨decoded, decoded', weights, isDecoded, isDecoded', isWeights, ?_⟩
      rw [areSparse, areValues, same]

/--
The forms agree exactly if the number of weights is an `int` and, unless there
is no entry at all, no entry is too large and the zero of each other weight is
filled in as the dense encoder limits it.
-/
theorem agree_iff (ops : FloatOps F) (kernel : Kernel) (tensor : FloatTensor F)
    (stored : F → F) (alpha_size : Nat) {bits : Nat} (positive : 1 ≤ bits) (small : bits ≤ 8) :
    Agree ops kernel tensor bits stored alpha_size ↔ kernel.area * kernel.channel < 2 ^ 31 ∧
        ((bestMaxStep ops kernel tensor bits).best_nnz = 0 ∨
          ∀ i < kernel.area * kernel.channel,
            if Stored ops kernel tensor bits i then
              sparseValue ops kernel tensor bits i ≤ maxValue bits
            else
              (BitVec.ofInt 8 (background ops kernel tensor bits stored alpha_size
                    (i / kernel.area))).toInt =
                clamp bits (sparseZero ops kernel tensor bits i)) := by
  by_cases isInt : kernel.area * kernel.channel < 2 ^ 31
  · rw [and_iff_right isInt, ← denseValues_eq_iff]
    exact agree_iff_of_isInt positive small isInt
  · refine iff_of_false ?_ fun holds => isInt holds.1
    rintro ⟨dense, shapeInt32, sparse, -, isSparse, -⟩
    have noSize : kernel.weightSize = none := if_neg isInt
    unfold WriteSparseQuanBlobs at isSparse
    rw [noSize] at isSparse
    nomatch isSparse

end Agreement

/-- The weights 0 and 1 in two bits. -/
theorem agree_twoBits : Agree intOps ⟨2, 1, by decide, by decide⟩
      ⟨fun i => i, fun _ => 1, false⟩ 2 id 1 :=
  (@agree_iff Int intOps ⟨2, 1, by decide, by decide⟩
      ⟨fun i => i, fun _ => 1, false⟩ id 1 2 (by decide) (by decide)).mpr
    ⟨by decide, Or.inr (by decide)⟩

/-- The weight 5 in two bits is 1 in the dense form, and -2 in the sparse one. -/
theorem not_agree : ¬∀ {F : Type} (ops : FloatOps F) (kernel : Kernel) (tensor : FloatTensor F)
        (bits : Nat),
      2 ≤ bits → bits ≤ 8 → Agree ops kernel tensor bits id (if tensor.asymmetricQuantFlag then
            2 * kernel.channel
          else
            kernel.channel) := by
  intro always
  have agree := always intOps ⟨1, 1, by decide, by decide⟩
      ⟨fun _ => 5, fun _ => 1, false⟩ 2 (by decide) (by decide)
  rcases (agree_iff_of_isInt (by decide) (by decide) (by decide)).mp agree with
    none_stored | fits
  · exact absurd none_stored (by decide)
  · exact absurd (denseValues_eq_iff.mp fits 0 (by decide)) (by decide)

end Mnn.Core.IDST
