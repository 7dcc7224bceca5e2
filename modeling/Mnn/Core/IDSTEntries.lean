import Mnn.Core.IDSTDense

/-!
# The entries of sparse weights

There is an entry for each weight that differs from zero, and for each weight
that is as far behind the last entry as a step can be.  Both loops of the
encoder go through these weights, and the decoder sets them.
-/

namespace Mnn.Core.IDST

open Mnn.Foundation.BitFields
open List
open Nat

section Entries

variable (value zeroQuant : Nat → Int) (iMaxStep : Nat)

/-- `iPreIdx` in front of a weight. -/
def lastEntry : Nat → Nat
  | 0 => 0
  | i + 1 =>
    if value i ≠ zeroQuant i ∨ i - lastEntry i ≥ iMaxStep then
      i
    else
      lastEntry i

/-- There is an entry for the weight. -/
def HasEntry (i : Nat) : Prop :=
  value i ≠ zeroQuant i ∨ i - lastEntry value zeroQuant iMaxStep i ≥ iMaxStep

instance : DecidablePred (HasEntry value zeroQuant iMaxStep) := fun i =>
  inferInstanceAs (Decidable (value i ≠ zeroQuant i ∨
        i - lastEntry value zeroQuant iMaxStep i ≥ iMaxStep))

variable {value zeroQuant iMaxStep}

theorem lastEntry_of_hasEntry {i : Nat} (hasEntry : HasEntry value zeroQuant iMaxStep i) :
    lastEntry value zeroQuant iMaxStep (i + 1) = i :=
  if_pos hasEntry

theorem lastEntry_of_not_hasEntry {i : Nat} (noEntry : ¬HasEntry value zeroQuant iMaxStep i) :
    lastEntry value zeroQuant iMaxStep (i + 1) = lastEntry value zeroQuant iMaxStep i :=
  if_neg noEntry

theorem lastEntry_le (i : Nat) : lastEntry value zeroQuant iMaxStep i ≤ i := by
  induction i with
  | zero => exact le_refl 0
  | succ i ih =>
    by_cases hasEntry : HasEntry value zeroQuant iMaxStep i
    · rw [lastEntry_of_hasEntry hasEntry]
      exact le_succ i
    · rw [lastEntry_of_not_hasEntry hasEntry]
      exact le_succ_of_le ih

theorem sub_lastEntry_le (positive : 0 < iMaxStep) (i : Nat) :
    i - lastEntry value zeroQuant iMaxStep i ≤ iMaxStep := by
  induction i with
  | zero => exact zero_le _
  | succ i ih =>
    by_cases hasEntry : HasEntry value zeroQuant iMaxStep i
    · rw [lastEntry_of_hasEntry hasEntry]
      omega
    · rw [lastEntry_of_not_hasEntry hasEntry]
      unfold HasEntry at hasEntry
      omega

/-- The weights that have an entry. -/
def entryPlaces (value zeroQuant : Nat → Int) (iMaxStep start count : Nat) : List Nat :=
  (List.range' start count).filter (HasEntry value zeroQuant iMaxStep ·)

theorem entryPlaces_succ (start count : Nat) :
    entryPlaces value zeroQuant iMaxStep start (count + 1) =
      if HasEntry value zeroQuant iMaxStep start then
        start :: entryPlaces value zeroQuant iMaxStep (start + 1) count
      else
        entryPlaces value zeroQuant iMaxStep (start + 1) count := by
  rw [entryPlaces, range'_succ, filter_cons]
  simp only [decide_eq_true_eq]
  rfl

theorem entriesFrom_eq (positive : 0 < iMaxStep) (count i : Nat) :
    entriesFrom value zeroQuant iMaxStep count i (lastEntry value zeroQuant iMaxStep i) =
      (entryPlaces value zeroQuant iMaxStep i count).map fun p =>
        (p - lastEntry value zeroQuant iMaxStep p, value p) := by
  induction count generalizing i with
  | zero => rfl
  | succ count ih =>
    have next := ih (i + 1)
    rw [entriesFrom, entryPlaces_succ]
    by_cases differs : value i ≠ zeroQuant i
    · have hasEntry : HasEntry value zeroQuant iMaxStep i := Or.inl differs
      have noFiller : ¬((i - i : Nat) : Int) ≥ iMaxStep := by omega
      rw [lastEntry_of_hasEntry hasEntry] at next
      rw [if_pos hasEntry, map_cons, ← next]
      simp only [if_pos differs, if_neg noFiller]
      rfl
    · have same : value i = zeroQuant i := not_not.mp differs
      by_cases far : i - lastEntry value zeroQuant iMaxStep i ≥ iMaxStep
      · have hasEntry : HasEntry value zeroQuant iMaxStep i := Or.inr far
        have isFar : ((i - lastEntry value zeroQuant iMaxStep i : Nat) : Int) ≥
              iMaxStep :=
          Int.ofNat_le.mpr far
        rw [lastEntry_of_hasEntry hasEntry] at next
        rw [if_pos hasEntry, map_cons, ← next]
        simp only [if_neg differs, if_pos isFar]
        rw [same]
        rfl
      · have noEntry : ¬HasEntry value zeroQuant iMaxStep i := by
          rintro (different | isFar)
          · exact differs different
          · exact far isFar
        have notFar : ¬((i - lastEntry value zeroQuant iMaxStep i : Nat) : Int) ≥
              iMaxStep := fun isFar => far (Int.ofNat_le.mp isFar)
        rw [lastEntry_of_not_hasEntry noEntry] at next
        rw [if_neg noEntry, ← next]
        simp only [if_neg differs, if_neg notFar]
        rfl

theorem countFrom_eq (positive : 0 < iMaxStep) (count i nnz : Nat) :
    countFrom value zeroQuant iMaxStep count i (lastEntry value zeroQuant iMaxStep i) nnz =
      nnz + (entryPlaces value zeroQuant iMaxStep i count).length := by
  have given : (iMaxStep : Int) ≠ -1 := by omega
  induction count generalizing i nnz with
  | zero => rfl
  | succ count ih =>
    rw [countFrom, entryPlaces_succ]
    by_cases differs : value i ≠ zeroQuant i
    · have hasEntry : HasEntry value zeroQuant iMaxStep i := Or.inl differs
      have noFiller : ¬(((i - i : Nat) : Int) ≥ iMaxStep ∧ (iMaxStep : Int) ≠ -1) := by
        omega
      have next := ih (i + 1) (nnz + 1)
      rw [lastEntry_of_hasEntry hasEntry] at next
      rw [if_pos hasEntry, length_cons]
      simp only [if_pos differs, if_neg noFiller]
      rw [next]
      omega
    · by_cases far : i - lastEntry value zeroQuant iMaxStep i ≥ iMaxStep
      · have hasEntry : HasEntry value zeroQuant iMaxStep i := Or.inr far
        have isFar : ((i - lastEntry value zeroQuant iMaxStep i : Nat) : Int) ≥ iMaxStep ∧
              (iMaxStep : Int) ≠ -1 :=
          ⟨Int.ofNat_le.mpr far, given⟩
        have next := ih (i + 1) (nnz + 1)
        rw [lastEntry_of_hasEntry hasEntry] at next
        rw [if_pos hasEntry, length_cons]
        simp only [if_neg differs, if_pos isFar]
        rw [next]
        omega
      · have noEntry : ¬HasEntry value zeroQuant iMaxStep i := by
          rintro (different | isFar)
          · exact differs different
          · exact far isFar
        have notFar : ¬(((i - lastEntry value zeroQuant iMaxStep i : Nat) : Int) ≥ iMaxStep ∧
              (iMaxStep : Int) ≠ -1) :=
          fun isFar => far (Int.ofNat_le.mp isFar.1)
        have next := ih (i + 1) nnz
        rw [lastEntry_of_not_hasEntry noEntry] at next
        rw [if_neg noEntry]
        simp only [if_neg differs, if_neg notFar]
        exact next

theorem GetSparsity_eq (positive : 0 < iMaxStep) (weightSize : Nat) :
    GetSparsity value zeroQuant weightSize iMaxStep =
      (entryPlaces value zeroQuant iMaxStep 0 weightSize).length := by
  have counts := @countFrom_eq value zeroQuant iMaxStep positive weightSize 0 0
  rw [zero_add] at counts
  exact counts

theorem length_entryPlaces_le (start count : Nat) :
    (entryPlaces value zeroQuant iMaxStep start count).length ≤ count := by
  have fewer := length_filter_le (HasEntry value zeroQuant iMaxStep ·) (List.range' start count)
  rwa [length_range'] at fewer

/-- The decoder sets the weights that have an entry, and no others. -/
theorem setWeights_spec {hasOutput : Bool} {map : List (Byte × Byte)} {code stored : Nat → Byte}
    (finds : ∀ p, FindInMap map (code p) = some (stored p))
    (positive : 0 < iMaxStep) (small : iMaxStep < 256)
    (count i : Nat) (blob : List Byte) (room : i + count ≤ blob.length) :
    ∃ weights, setWeights hasOutput map ((entryPlaces value zeroQuant iMaxStep i count).map fun p =>
            (BitVec.ofNat 8 (p - lastEntry value zeroQuant iMaxStep p), code p))
          (lastEntry value zeroQuant iMaxStep i) blob =
        some (some weights) ∧
      weights.length = blob.length ∧
      ∀ p, weights[p]? =
          if i ≤ p ∧ p < i + count ∧ HasEntry value zeroQuant iMaxStep p then
            some (stored p)
          else
            blob[p]? := by
  induction count generalizing i blob with
  | zero =>
    refine ⟨blob, rfl, rfl, ?_⟩
    intro p
    rw [if_neg (by omega)]
  | succ count ih =>
    rw [entryPlaces_succ]
    by_cases hasEntry : HasEntry value zeroQuant iMaxStep i
    · have step : (BitVec.ofNat 8 (i - lastEntry value zeroQuant iMaxStep i)).toNat =
            i - lastEntry value zeroQuant iMaxStep i := by
        have short := @sub_lastEntry_le value zeroQuant iMaxStep positive i
        rw [BitVec.toNat_ofNat]
        exact mod_eq_of_lt (by omega)
      have place :
          lastEntry value zeroQuant iMaxStep i + (i - lastEntry value zeroQuant iMaxStep i) = i :=
        Nat.add_sub_cancel' (lastEntry_le i)
      rcases ih (i + 1) (blob.set i (stored i)) (by rw [length_set]; omega) with
        ⟨weights, isWeights, sameLength, places⟩
      rw [lastEntry_of_hasEntry hasEntry] at isWeights
      rw [length_set] at sameLength
      refine ⟨weights, ?_, sameLength, ?_⟩
      · rw [if_pos hasEntry, map_cons, setWeights]
        simp only [step, place, finds, Option.isNone_some, Bool.false_and,
          Bool.false_eq_true, if_false, Option.getD_some]
        rw [if_pos (by omega)]
        exact isWeights
      · intro p
        rw [places p]
        rcases lt_trichotomy p i with less | rfl | greater
        · rw [if_neg (by omega), if_neg (by omega), getElem?_set_ne (by omega)]
        · rw [if_neg (by omega), if_pos ⟨le_refl p, by omega, hasEntry⟩,
            getElem?_set_self (by omega)]
        · rw [getElem?_set_ne (by omega)]
          have sameCase :
              (i + 1 ≤ p ∧ p < i + 1 + count ∧ HasEntry value zeroQuant iMaxStep p) ↔
                (i ≤ p ∧ p < i + (count + 1) ∧ HasEntry value zeroQuant iMaxStep p) := by
            rw [← and_assoc, ← and_assoc]
            exact and_congr_left fun _ => by omega
          simp only [sameCase]
    · rcases ih (i + 1) blob (by omega) with
        ⟨weights, isWeights, sameLength, places⟩
      rw [lastEntry_of_not_hasEntry hasEntry] at isWeights
      refine ⟨weights, ?_, sameLength, ?_⟩
      · rw [if_neg hasEntry]
        exact isWeights
      · intro p
        rw [places p]
        by_cases here : p = i
        · subst here
          rw [if_neg (by omega), if_neg fun has => hasEntry has.2.2]
        · have sameCase :
              (i + 1 ≤ p ∧ p < i + 1 + count ∧ HasEntry value zeroQuant iMaxStep p) ↔
                (i ≤ p ∧ p < i + (count + 1) ∧ HasEntry value zeroQuant iMaxStep p) := by
            rw [← and_assoc, ← and_assoc]
            exact and_congr_left fun _ => by omega
          simp only [sameCase]

end Entries

/-!
# Sparse and dense weights

The sparse encoder does not limit what it rounds, and a value that is not in
the set gets the first index.  The decoder fills in what has no entry.  So the
two forms agree exactly where no entry is too large and where zero is what the
dense encoder limits it to.
-/

/-! ## Sets and maps -/

theorem foldl_InsertSimpleSet {values set : List Byte} (distinct : (set ++ values).Nodup)
    (few : (set ++ values).length ≤ 256) :
    values.foldl InsertSimpleSet set = set ++ values := by
  induction values generalizing set with
  | nil => exact (append_nil set).symm
  | cons value values ih =>
    have isNew : value ∉ set := by
      intro isIn
      exact (nodup_append.mp distinct).2.2 value isIn value mem_cons_self rfl
    have room : ¬set.length ≥ 256 := by
      rw [length_append, length_cons] at few
      omega
    have together : set ++ value :: values = (set ++ [value]) ++ values := by
      rw [append_assoc, singleton_append]
    rw [together] at distinct few ⊢
    rw [foldl_cons, InsertSimpleSet, if_neg room, if_neg isNew]
    exact ih distinct few

theorem foldl_InsertMap {entries : List (Byte × Nat)} {map : List (Byte × Byte)} (distinct :
      (map.map Prod.fst ++ entries.map fun entry => BitVec.ofNat 8 entry.2).Nodup)
    (few : map.length + entries.length ≤ 256) :
    entries.foldl (fun map entry => InsertMap map (BitVec.ofNat 8 entry.2) entry.1) map =
      map ++ entries.map fun entry => (BitVec.ofNat 8 entry.2, entry.1) := by
  induction entries generalizing map with
  | nil => exact (append_nil map).symm
  | cons entry entries ih =>
    have isNew : (map.any fun other => other.1 == BitVec.ofNat 8 entry.2) = false := by
      rw [any_eq_false]
      intro other isIn same
      refine (nodup_append.mp distinct).2.2 other.1 (mem_map_of_mem isIn) (BitVec.ofNat 8 entry.2)
        mem_cons_self ?_
      exact beq_iff_eq.mp same
    have room : ¬map.length ≥ 256 := by
      rw [length_cons] at few
      omega
    rw [foldl_cons, InsertMap, isNew, if_neg Bool.false_ne_true, if_neg room, ih, append_assoc]
    · rfl
    · rw [map_append, append_assoc]
      exact distinct
    · rw [length_append, length_singleton]
      rw [length_cons] at few
      omega

theorem FindInMap_of_mem {map : List (Byte × Byte)} (distinct : (map.map Prod.fst).Nodup)
    {k v : Byte} (isIn : (k, v) ∈ map) : FindInMap map k = some v := by
  unfold FindInMap
  induction map with
  | nil => nomatch isIn
  | cons entry map ih =>
    rw [map_cons, nodup_cons] at distinct
    rw [find?_cons]
    rcases mem_cons.mp isIn with rfl | isIn
    · rw [beq_self_eq_true]
      rfl
    · have other : (entry.1 == k) = false := by
        rw [beq_eq_false_iff_ne]
        rintro rfl
        exact distinct.1 (mem_map.mpr ⟨_, isIn, rfl⟩)
      rw [other]
      exact ih distinct.2 isIn

theorem FindInMap_rankedMap {set : List Byte} (few : set.length ≤ 256) {i : Nat} {value : Byte}
    (isValue : set[i]? = some value) :
    FindInMap (rankedMap set) (BitVec.ofNat 8 i) = some value := by
  have keys : (set.zipIdx.map fun entry => BitVec.ofNat 8 entry.2).Nodup := by
    have ranks :
        (set.zipIdx.map fun entry => BitVec.ofNat 8 entry.2) =
          (List.range set.length).map (BitVec.ofNat 8) := by
      show set.zipIdx.map (BitVec.ofNat 8 ∘ Prod.snd) = _
      rw [← map_map, zipIdx_map_snd, range_eq_range']
    rw [ranks]
    refine List.Nodup.map_on ?_ nodup_range
    intro i isIn j isIn' same
    have numbers := congrArg BitVec.toNat same
    rw [mem_range] at isIn isIn'
    rw [BitVec.toNat_ofNat, BitVec.toNat_ofNat] at numbers
    omega
  have isMap :
      rankedMap set =
        set.zipIdx.map fun entry => (BitVec.ofNat 8 entry.2, entry.1) := by
    refine (@foldl_InsertMap _ [] keys ?_).trans (nil_append _)
    rw [length_zipIdx]
    exact (Nat.zero_add _).symm ▸ few
  rw [isMap]
  apply FindInMap_of_mem
  · rw [map_map]
    exact keys
  · refine mem_map.mpr ⟨(value, i), ?_, rfl⟩
    rw [mem_zipIdx_iff_getElem?]
    exact isValue

section Codes

variable {bits : Nat} (positive : 1 ≤ bits) (small : bits ≤ 8)

include small in
theorem nodup_linearSamples : (linearSamples bits).Nodup := by
  rw [linearSamples_eq]
  refine List.Nodup.map_on ?_ nodup_range
  intro i isIn j isIn' same
  have values := congrArg BitVec.toInt same
  rw [toInt_sample small (mem_range.mp isIn),
    toInt_sample small (mem_range.mp isIn')] at values
  omega

include positive small in
theorem length_linearSamples_le : (linearSamples bits).length ≤ 256 := by
  rw [length_linearSamples positive]
  exact Nat.pow_le_pow_right (by decide : 0 < 2) small

instance (bits : Nat) (value : Int) : Decidable (InRange bits value) :=
  inferInstanceAs (Decidable (_ ∧ _))

/-- What is decoded for the value of an entry. -/
def storedValue (bits : Nat) (value : Int) : Int :=
  if InRange bits value then value else minValue bits

theorem inRange_storedValue (bits : Nat) (value : Int) : InRange bits (storedValue bits value) := by
  unfold storedValue
  split
  · assumption
  · exact inRange_minValue bits

theorem mem_weightSet {value : Int} : value ∈ weightSet bits ↔ InRange bits value := by
  have half : 0 < 2 ^ (bits - 1) := Nat.two_pow_pos _
  rw [weightSet, mem_map]
  unfold InRange minValue maxValue
  constructor
  · rintro ⟨i, isIn, rfl⟩
    have less := mem_range.mp isIn
    omega
  · rintro ⟨least, most⟩
    refine ⟨(value + (2 ^ (bits - 1) : Nat)).toNat, ?_, ?_⟩
    · rw [mem_range]
      omega
    · omega

theorem mapWeight_eq (value : Int) :
    ∃ i, mapWeight (weightSet bits) value = BitVec.ofNat 8 i ∧
      (weightSet bits)[i]? = some (storedValue bits value) := by
  unfold mapWeight storedValue
  by_cases inRange : InRange bits value
  · have isIn := mem_weightSet.mpr inRange
    rw [if_pos isIn, if_pos inRange]
    exact ⟨_, rfl, getElem?_idxOf isIn⟩
  · have notIn : value ∉ weightSet bits := fun isIn =>
      inRange (mem_weightSet.mp isIn)
    rw [if_neg notIn, if_neg inRange]
    refine ⟨0, rfl, ?_⟩
    have some_values : 0 < 2 * 2 ^ (bits - 1) := by
      have half : 0 < 2 ^ (bits - 1) := Nat.two_pow_pos _
      omega
    rw [weightSet, getElem?_map, getElem?_range some_values]
    exact congrArg some (Int.add_zero _)

include positive small in
theorem FindInMap_mapWeight (value : Int) : FindInMap (rankedMap (linearSamples bits))
        (mapWeight (weightSet bits) value) =
      some (BitVec.ofInt 8 (storedValue bits value)) := by
  rcases @mapWeight_eq bits value with ⟨i, isIndex, isValue⟩
  rw [isIndex]
  apply FindInMap_rankedMap (length_linearSamples_le positive small)
  rw [linearSamples, getElem?_map, isValue]
  rfl

include positive in
theorem mapWeight_lt (value : Int) : (mapWeight (weightSet bits) value).toNat < 2 ^ bits := by
  rcases @mapWeight_eq bits value with ⟨i, isIndex, isValue⟩
  rcases List.getElem?_eq_some_iff.mp isValue with ⟨less, -⟩
  rw [length_weightSet positive] at less
  rw [isIndex, BitVec.toNat_ofNat]
  exact lt_of_le_of_lt (mod_le ..) less

include small in
theorem toInt_ofInt_inRange {value : Int} (inRange : InRange bits value) :
    (BitVec.ofInt 8 value).toInt = value := by
  have half := half_le small
  rcases inRange with ⟨least, most⟩
  unfold minValue at least
  unfold maxValue at most
  rw [BitVec.toInt_ofInt]
  apply Int.bmod_eq_of_le
  · omega
  · omega

end Codes

/-- A chosen width is between two and eight bits, and has its count. -/
theorem GetBestMaxStep_spec (value zeroQuant : Nat → Int) (weightSize BlobDataSize : Nat) :
    (GetBestMaxStep value zeroQuant weightSize BlobDataSize).best_nnz = 0 ∨
      2 ≤ (GetBestMaxStep value zeroQuant weightSize BlobDataSize).iMaxStepBits ∧
        (GetBestMaxStep value zeroQuant weightSize BlobDataSize).iMaxStepBits ≤ 8 ∧
          (GetBestMaxStep value zeroQuant weightSize BlobDataSize).best_nnz =
            GetSparsity value zeroQuant weightSize (2 ^ (GetBestMaxStep value zeroQuant weightSize
                  BlobDataSize).iMaxStepBits - 1) := by
  unfold GetBestMaxStep
  refine @List.foldlRecOn _ _ (List.range' 2 7) (motive := fun best : BestMaxStep =>
        best.best_nnz = 0 ∨ 2 ≤ best.iMaxStepBits ∧ best.iMaxStepBits ≤ 8 ∧ best.best_nnz =
              GetSparsity value zeroQuant weightSize (2 ^ best.iMaxStepBits - 1))
      _ _ (Or.inl rfl) ?_
  intro best holds i isIn
  rw [mem_range'_1] at isIn
  simp only
  split
  · have atMost : i ≤ 8 := le_of_lt_succ isIn.2
    exact Or.inr ⟨isIn.1, atMost, rfl⟩
  · exact holds

end Mnn.Core.IDST
