import Mnn.Converter.StoredOps

/-!
# Loading of external parameters

Experts, convolutions and constants that were stored, and what the loader makes of them.
-/

namespace Mnn.Converter

open Mnn.Foundation BitFields RawImages SplitRanges
open List
open Option
open Convolution2D

variable {contents : List Byte} {offset : Nat}

/-! ## Experts -/

/-- The first vector of an expert. -/
def Convolution2D.first (param : Convolution2D) : List Byte :=
  match param.quanParameter with
  | some quan => image quan.buffer
  | none => image param.weight

variable {param : Convolution2D}

theorem Convolution2D.first_ne_nil :
    param.first ≠ [] ↔
      match param.quanParameter with
      | some quan => quan.buffer ≠ []
      | none => param.weight ≠ [] := by
  rw [first]
  split <;> rw [Ne, image_eq_nil]

theorem validSizes_of_le {quanParameter : Option IDSTQuan} {fileSize i stop : Nat}
    {sizes : List Nat}
    (whole : ∀ k size, sizes[k]? = some size → size % elementBytes quanParameter (i + k) = 0)
    (le : stop + sizes.sum ≤ fileSize) :
    validSizes quanParameter fileSize i stop sizes = true := by
  induction sizes generalizing i stop with
  | nil => rfl
  | cons size sizes ih =>
    rw [sum_cons] at le
    have rest := @ih (i + 1) (stop + size) (fun k other isOther => by
        have isWhole := whole (k + 1) other isOther
        rwa [add_right_comm, ← add_assoc] at *)
      (by omega)
    rw [validSizes, rest, Bool.and_true, Bool.and_eq_true, decide_eq_true_iff, decide_eq_true_iff]
    exact ⟨whole 0 size rfl, by omega⟩

theorem whole_record (expert : Convolution2D) (k size : Nat)
    (isSize : (expert.record offset).tail[k]? = some size) :
    size % elementBytes (expert.emptied (expert.record offset)).quanParameter (1 + k) = 0 := by
  obtain ⟨weight, bias, quanParameter, external⟩ := expert
  have floats : ∀ values : List (BitVec 32), (image values).length % 4 = 0 := fun values => by
    rw [length_image]
    exact Nat.mul_mod_left ..
  cases quanParameter with
  | none =>
    obtain _ | _ | k := k
    · exact some.inj isSize ▸ floats weight
    · exact some.inj isSize ▸ floats bias
    · nomatch isSize
  | some quan =>
    obtain ⟨buffer, alpha, alphaFp16, index, scaleStorage⟩ := quan
    obtain _ | _ | _ | _ | k := k
    · cases scaleStorage <;> exact Nat.mod_one size
    · cases scaleStorage with
      | FP32 => exact some.inj isSize ▸ floats alpha
      | FP16 =>
        have isSize : (image alphaFp16).length = size := some.inj isSize
        rw [← isSize, length_image]
        exact Nat.mul_mod_left ..
    · cases scaleStorage <;> exact some.inj isSize ▸ floats bias
    · cases scaleStorage <;> exact some.inj isSize ▸ floats index
    · nomatch isSize

theorem exists_record (expert : Convolution2D) (offset : Nat) :
    ∃ sizes, expert.record offset = offset :: expert.first.length :: sizes := by
  rw [record, first]
  cases expert.quanParameter with
  | none => exact ⟨_, rfl⟩
  | some quan => exact ⟨_, rfl⟩

variable {expert : Convolution2D}

/-- The record of an expert whose bytes are there is valid if it has a weight. -/
theorem validExpert_record (holds : Holds contents offset expert.payload) (some : expert.first ≠ []) :
    validExpert contents.length (Option.some (expert.emptied (expert.record offset))) =
      true := by
  have le := holds.le
  rw [← expert.sum_record offset] at le
  have valid := validSizes_of_le (whole_record expert) le
  obtain ⟨others, isRecord⟩ := exists_record expert offset
  have differs : ((expert.record offset).tail.head? != Option.some 0) = true := by
    rw [isRecord, tail_cons, head?_cons, bne_iff_ne]
    exact fun none => some (length_eq_zero_iff.mp (Option.some.inj none))
  have lengths : (decide (2 ≤ (expert.record offset).tail.length) &&
      decide ((expert.record offset).tail.length ≤ 4) &&
      ((expert.emptied (expert.record offset)).quanParameter.isSome ||
        decide ((expert.record offset).tail.length = 2))) = true := by
    rw [record, emptied]
    cases expert.quanParameter <;> rfl
  rw [validExpert, external_emptied]
  generalize (expert.emptied (expert.record offset)).quanParameter = quan at lengths valid ⊢
  split
  · next none => exact absurd none (expert.record_ne_nil offset)
  · next first sizes isCons =>
      rw [isCons, tail_cons] at lengths differs valid
      rw [isRecord] at isCons
      rw [← (List.cons.inj isCons).1, lengths, differs, valid]
      rfl

theorem first_ne_nil_of_validExpert {fileSize : Nat}
    (valid : validExpert fileSize (some (expert.emptied (expert.record offset))) = true) :
    expert.first ≠ [] := by
  intro none
  obtain ⟨sizes, isRecord⟩ := exists_record expert offset
  rw [validExpert, external_emptied, isRecord, none, length_nil] at valid
  simp only [head?_cons, bne_self_eq_false, Bool.and_false, Bool.false_and] at valid
  nomatch valid

theorem loadExpert_record (fresh : expert.external = [])
    (holds : Holds contents offset expert.payload) :
    loadExpert contents (expert.emptied (expert.record offset)) = (true, expert) := by
  obtain ⟨weight, bias, quanParameter, external⟩ := expert
  obtain rfl := fresh
  cases quanParameter with
  | none =>
    have isWeight := @loadIndexedExternalData_eq (BitVec 32) _ _ ⟨contents, offset⟩ weight
      holds.left
    have isBias := @loadIndexedExternalData_eq (BitVec 32) _ _
      ⟨contents, offset + (image weight).length⟩ bias holds.right
    simp only [loadExpert, emptied, record,
      getD_cons_zero, getD_cons_succ, isWeight, isBias, if_true]
  | some quan =>
    obtain ⟨buffer, alpha, alphaFp16, index, scaleStorage⟩ := quan
    have isBuffer := @loadIndexedExternalData_eq (BitVec 8) _ _ ⟨contents, offset⟩ buffer holds.left
    have rest := holds.right.right
    cases scaleStorage with
    | FP32 =>
      have isAlpha := @loadIndexedExternalData_eq (BitVec 32) _ _
        ⟨contents, offset + (image buffer).length⟩ alpha holds.right.left
      have isBias := @loadIndexedExternalData_eq (BitVec 32) _ _
        ⟨contents, offset + (image buffer).length + (image alpha).length⟩ bias rest.left
      have isIndex := @loadIndexedExternalData_eq (BitVec 32) _ _
        ⟨contents, offset + (image buffer).length + (image alpha).length +
          (image bias).length⟩ index rest.right
      simp only [loadExpert, emptied, record,
        IDSTQuan.emptied, IDSTQuan.scales, getD_cons_zero, getD_cons_succ,
        isBuffer, isAlpha, isBias, isIndex, length_cons, length_nil,
        Nat.reduceAdd, Nat.reduceLT, if_true]
    | FP16 =>
      have isAlpha := @loadIndexedExternalData_eq (BitVec 16) _ _
        ⟨contents, offset + (image buffer).length⟩ alphaFp16 holds.right.left
      have isBias := @loadIndexedExternalData_eq (BitVec 32) _ _
        ⟨contents, offset + (image buffer).length + (image alphaFp16).length⟩ bias
        rest.left
      have isIndex := @loadIndexedExternalData_eq (BitVec 32) _ _
        ⟨contents, offset + (image buffer).length + (image alphaFp16).length +
          (image bias).length⟩ index rest.right
      simp only [loadExpert, emptied, record,
        IDSTQuan.emptied, IDSTQuan.scales, getD_cons_zero, getD_cons_succ,
        isBuffer, isAlpha, isBias, isIndex, length_cons, length_nil,
        Nat.reduceAdd, Nat.reduceLT, if_true]

variable {linears : List (Option Convolution2D)}

theorem validExperts_stored (holds : Holds contents offset (expertsPayload linears))
    (weights : ∀ linear ∈ linears, ∃ expert, linear = some expert ∧ expert.first ≠ []) :
    (storedExperts offset linears).all (validExpert contents.length) = true := by
  induction linears generalizing offset with
  | nil => rfl
  | cons linear linears ih =>
    obtain ⟨expert, rfl, some⟩ := weights linear mem_cons_self
    rw [expertsPayload, flatMap_cons] at holds
    rw [storedExperts, all_cons, Bool.and_eq_true]
    exact ⟨validExpert_record holds.left some, ih holds.right fun linear member =>
        weights linear (mem_cons_of_mem _ member)⟩

theorem weights_of_validExperts {fileSize : Nat}
    (valid : (storedExperts offset linears).all (validExpert fileSize) = true) :
    ∀ linear ∈ linears, ∃ expert, linear = some expert ∧ expert.first ≠ [] := by
  induction linears generalizing offset with
  | nil => exact fun linear member => absurd member not_mem_nil
  | cons first linears ih =>
    intro linear member
    cases first with
    | none =>
      rw [storedExperts, all_cons, Bool.and_eq_true] at valid
      cases valid.1
    | some expert =>
      rw [storedExperts, all_cons, Bool.and_eq_true] at valid
      rcases mem_cons.mp member with rfl | member
      · exact ⟨expert, rfl, first_ne_nil_of_validExpert valid.1⟩
      · exact ih valid.2 linear member

theorem loadExperts_stored (fresh : ∀ expert, some expert ∈ linears → expert.external = [])
    (holds : Holds contents offset (expertsPayload linears))
    (experts : ∀ linear ∈ linears, ∃ expert, linear = some expert) :
    loadExperts contents (storedExperts offset linears) = some (true, linears) := by
  induction linears generalizing offset with
  | nil => rfl
  | cons linear linears ih =>
    obtain ⟨expert, rfl⟩ := experts linear mem_cons_self
    rw [expertsPayload, flatMap_cons] at holds
    have loaded : loadExperts contents
        (storedExperts (offset + expert.payload.length) linears) = some (true, linears) :=
      ih (fun expert member => fresh expert (mem_cons_of_mem _ member))
        holds.right fun linear member => experts linear (mem_cons_of_mem _ member)
    rw [storedExperts, loadExperts, loadExpert_record (fresh expert mem_cons_self) holds.left]
    dsimp only
    rw [loaded]
    rfl

/-! ## Convolutions and constants -/

theorem loadConvolution_stored (fresh : param.external = [])
    (isFloat : param.quanParameter = none) (weight : param.weight ≠ [])
    (bias : param.bias ≠ []) (holds : Holds contents offset param.payload) :
    (param.external' offset).length = 3 ∧
      loadConvolution contents (param.emptied (param.external' offset)) = param := by
  obtain ⟨values, values', quanParameter, external⟩ := param
  obtain rfl := fresh
  obtain rfl := isFloat
  have isRecord : external' ⟨values, values', none, []⟩ offset =
      [offset, (image values).length, (image values').length] := by
    obtain ⟨_, _, rfl⟩ := exists_cons_of_ne_nil weight
    obtain ⟨_, _, rfl⟩ := exists_cons_of_ne_nil bias
    rfl
  have isWeight := @loadExternalData_eq (BitVec 32) _ _ ⟨contents, offset⟩ values holds.left
  have isBias := @loadExternalData_eq (BitVec 32) _ _
    ⟨contents, offset + (image values).length⟩ values' holds.right
  rw [isRecord]
  refine ⟨rfl, ?_⟩
  simp only [loadConvolution, emptied, isWeight, isBias]

/-- The record of a float convolution has three entries only with both vectors. -/
theorem both_of_length_external' (isRecord : (param.external' offset).length = 3) :
    param.quanParameter = none ∧ param.weight ≠ [] ∧ param.bias ≠ [] := by
  obtain ⟨weight, bias, quanParameter, external⟩ := param
  cases quanParameter with
  | some => nomatch isRecord
  | none =>
    cases weight with
    | nil =>
      cases bias with
      | nil => nomatch isRecord
      | cons => nomatch isRecord
    | cons =>
      cases bias with
      | nil => nomatch isRecord
      | cons => exact ⟨rfl, cons_ne_nil _ _, cons_ne_nil _ _⟩

theorem partsRecord_singleton {bytes : List Byte} (some : bytes ≠ []) :
    partsRecord offset [bytes] = [offset, bytes.length] := by
  obtain ⟨_, _, rfl⟩ := exists_cons_of_ne_nil some
  rfl

theorem Blob.vector_eq_payload {param : Blob} (some : param.payload ≠ []) :
    param.payload = param.vector := by
  rw [payload] at some ⊢
  split at some
  · exact absurd rfl some
  · next large => rw [if_neg large]

@[simp]
theorem Blob.external_emptied (param : Blob) (external : List Nat) :
    (param.emptied external).external = external := by
  rw [emptied]
  split <;> rfl

theorem loadBlob_stored {param : Blob} (fresh : param.external = [])
    (some : param.payload ≠ []) (differs : param.dataType ≠ .DT_BFLOAT16)
    (holds : Holds contents offset param.payload) :
    loadBlob contents (param.emptied (partsRecord offset [param.vector])) = param := by
  have same := Blob.vector_eq_payload some
  rw [same] at some holds
  rw [partsRecord_singleton some]
  obtain ⟨dims, dataType, uint8s, int8s, int32s, float32s, external⟩ := param
  obtain rfl := fresh
  cases dataType with
  | DT_FLOAT =>
    have isVector := @loadExternalData_eq (BitVec 32) _ _ ⟨contents, offset⟩ float32s holds
    simp only [loadBlob, Blob.emptied, Blob.vector, isVector]
  | DT_BFLOAT16 => exact absurd rfl differs
  | DT_INT32 =>
    have isVector := @loadExternalData_eq (BitVec 32) _ _ ⟨contents, offset⟩ int32s holds
    simp only [loadBlob, Blob.emptied, Blob.vector, isVector]
  | DT_UINT8 =>
    have isVector := @loadExternalData_eq (BitVec 8) _ _ ⟨contents, offset⟩ uint8s holds
    simp only [loadBlob, Blob.emptied, Blob.vector, isVector]
  | DT_INT8 =>
    have isVector := @loadExternalData_eq (BitVec 8) _ _ ⟨contents, offset⟩ int8s holds
    simp only [loadBlob, Blob.emptied, Blob.vector, isVector]
  | other => exact absurd rfl some

/-!
# External parameters come back

The loader gives an op back if its switch has a case for what the writer has stored.  A
net comes back, and is stored again in the same way, if all that was moved does.
-/

variable {contents : List Byte} {offset : Nat} {files : String → List Byte}

/-! ## Ops -/

namespace Op

variable {op : Op}

theorem InMemory.experts_fresh {type : OpType} {param : IndexedLinearParam}
    {inputIndexes : List Int} {externalPath : String}
    (inMemory : InMemory ⟨type, .IndexedLinearParam param, inputIndexes, externalPath⟩) :
    ∀ expert, some expert ∈ param.linears → expert.external = [] :=
  fun expert member =>
    inMemory.fresh _ (mem_filterMap.mpr ⟨some expert, member, rfl⟩)

theorem InMemory.load_stored (inMemory : op.InMemory) (moved : op.Moved)
    (restorable : op.Restorable) (holds : Holds contents offset op.payload) :
    loadExternalParam files contents (op.stored offset) = some (true, op) := by
  obtain ⟨type, main, inputIndexes, externalPath⟩ := op
  obtain rfl : externalPath = "" := inMemory.path
  cases main with
  | IndexedLinearParam param =>
    obtain ⟨rfl, weights⟩ : type = .IndexedLinear ∧ _ := restorable
    have weights : ∀ linear ∈ param.linears, ∃ expert, linear = some expert ∧
        expert.first ≠ [] := by
      intro linear member
      obtain ⟨expert, rfl, some⟩ := weights linear member
      exact ⟨expert, rfl, first_ne_nil.mpr some⟩
    have some : (storedExperts offset param.linears).isEmpty = false := by
      cases linears : param.linears with
      | nil =>
        rcases moved with moved | ⟨expert, member⟩
        · simp only [payload, expertsPayload, linears, flatMap_nil] at moved
          exact absurd rfl moved
        · rw [linears] at member
          exact absurd member not_mem_nil
      | cons linear linears => cases linear <;> rfl
    have valid := validExperts_stored holds weights
    have loaded := loadExperts_stored inMemory.experts_fresh holds fun linear member =>
      (weights linear member).imp fun _ both => both.1
    simp only [stored, loadExternalParam, validateIndexedLinearExternal, ne_eq,
      not_true_eq_false, if_false, some, valid, loaded]
    rfl
  | Convolution2D param =>
    obtain ⟨isConvolution, isFloat, weight, bias⟩ := restorable
    have few : ¬ 1 < inputIndexes.length := by
      intro many
      rcases moved with moved | ⟨few, -⟩
      · simp only [payload, if_pos many] at moved
        exact moved rfl
      · exact not_lt.mpr few many
    have holds : Holds contents offset param.payload := by
      simp only [payload, if_neg few] at holds
      exact holds
    obtain ⟨length, loaded⟩ := loadConvolution_stored
      (inMemory.fresh _ (mem_singleton_self _)) isFloat weight bias holds
    have isStored : stored ⟨type, .Convolution2D param, inputIndexes, ""⟩ offset =
        ⟨type, .Convolution2D (param.emptied (param.external' offset)), inputIndexes, ""⟩ :=
      if_neg few
    have skips : ¬ (param.emptied (param.external' offset)).external.length ≠ 3 := by
      rw [external_emptied, not_not, length]
    rw [isStored]
    rcases isConvolution with isType | isType | isType
    all_goals
      obtain rfl : type = _ := isType
      simp only [loadExternalParam]
      rw [if_neg skips, if_neg (not_not.mpr rfl), loaded]
  | Blob param =>
    obtain ⟨isConst, differs⟩ := restorable
    have some : param.payload ≠ [] := by
      rcases moved with moved | impossible
      · exact moved
      · exact absurd impossible id
    have loaded := loadBlob_stored (inMemory.fresh _ (mem_singleton_self _)) some differs holds
    have isStored : stored ⟨type, .Blob param, inputIndexes, ""⟩ offset =
        ⟨type, .Blob (param.emptied (partsRecord offset [param.vector])), inputIndexes, ""⟩ :=
      if_neg some
    have skips : ¬ (param.emptied (partsRecord offset [param.vector])).external.length ≠
        2 := by
      have same := Blob.vector_eq_payload some
      rw [same] at some
      rw [Blob.external_emptied, partsRecord_singleton some, not_not]
      rfl
    rw [isStored]
    rcases isConst with isType | isType
    all_goals
      obtain rfl : type = _ := isType
      simp only [loadExternalParam]
      rw [if_neg skips, if_neg (not_not.mpr rfl), loaded]
  | _ => exact absurd restorable id

theorem InMemory.restorable_of_load (inMemory : op.InMemory) (moved : op.Moved)
    (loads : loadExternalParam files contents (op.stored offset) = some (true, op)) :
    op.Restorable := by
  have changed : op.stored offset ≠ op := fun same => (inMemory.stored_eq_iff offset).mp same moved
  have unchanged : some (true, op.stored offset) ≠ some (true, op) := fun same =>
    changed (Prod.ext_iff.mp (some.inj same)).2
  obtain ⟨type, main, inputIndexes, externalPath⟩ := op
  obtain rfl : externalPath = "" := inMemory.path
  cases main with
  | IndexedLinearParam param =>
    have isType : type = .IndexedLinear := by
      cases type with
      | IndexedLinear => rfl
      | Scale => exact absurd loads unchanged
      | LayerNorm => exact absurd loads unchanged
      | other => exact absurd loads unchanged
      | _ => cases loads
    subst isType
    refine ⟨rfl, fun linear member => ?_⟩
    simp only [stored, loadExternalParam, ne_eq, not_true_eq_false, if_false] at loads
    split at loads
    · next valid =>
        simp only [validateIndexedLinearExternal, Bool.and_eq_true] at valid
        obtain ⟨expert, isExpert, some⟩ := weights_of_validExperts valid.2 linear member
        exact ⟨expert, isExpert, first_ne_nil.mp some⟩
    · cases loads
  | Convolution2D param =>
    by_cases many : 1 < inputIndexes.length
    · exact absurd (if_pos many) changed
    · have isStored : stored ⟨type, .Convolution2D param, inputIndexes, ""⟩ offset =
          ⟨type, .Convolution2D (param.emptied (param.external' offset)),
            inputIndexes, ""⟩ := if_neg many
      rw [isStored] at loads unchanged
      have length : (param.external' offset).length ≠ 3 →
          (param.emptied (param.external' offset)).external.length ≠ 3 := by
        rw [external_emptied]
        exact id
      have three : (type = .Convolution ∨ type = .Deconvolution ∨
          type = .ConvolutionDepthwise) → (param.external' offset).length = 3 := by
        rintro isType
        by_contra differs
        rcases isType with rfl | rfl | rfl
        all_goals
          simp only [loadExternalParam] at loads
          rw [if_pos (length differs)] at loads
          exact unchanged loads
      cases type with
      | Convolution =>
        exact ⟨Or.inl rfl, both_of_length_external' (three (Or.inl rfl))⟩
      | Deconvolution =>
        exact ⟨Or.inr (Or.inl rfl), both_of_length_external' (three (Or.inr (Or.inl rfl)))⟩
      | ConvolutionDepthwise =>
        exact ⟨Or.inr (Or.inr rfl), both_of_length_external' (three (Or.inr (Or.inr rfl)))⟩
      | IndexedLinear => cases loads
      | TrainableParam => cases loads
      | Const => cases loads
      | _ => exact absurd loads unchanged
  | Scale param =>
    cases type with
    | Scale => exact absurd loads unchanged
    | LayerNorm => exact absurd loads unchanged
    | other => exact absurd loads unchanged
    | _ => cases loads
  | LayerNorm param =>
    by_cases none : param.gamma = [] ∨ param.beta = []
    · exact absurd (if_pos none) changed
    · have isStored : stored ⟨type, .LayerNorm param, inputIndexes, ""⟩ offset =
          ⟨type, .LayerNorm ⟨[], [], partsRecord offset
            [image param.gamma, image param.beta]⟩, inputIndexes, ""⟩ := if_neg none
      rw [isStored] at loads unchanged
      cases type with
      | Scale => exact absurd loads unchanged
      | LayerNorm => exact absurd loads unchanged
      | other => exact absurd loads unchanged
      | _ => cases loads
  | Blob param =>
    by_cases none : param.payload = []
    · exact absurd (if_pos none) changed
    · have isStored : stored ⟨type, .Blob param, inputIndexes, ""⟩ offset =
          ⟨type, .Blob (param.emptied (partsRecord offset [param.vector])),
            inputIndexes, ""⟩ := if_neg none
      rw [isStored] at loads unchanged
      have differs : (type = .Const ∨ type = .TrainableParam) → param.dataType ≠ .DT_BFLOAT16 := by
        intro isConst isHalf
        have same := Blob.vector_eq_payload none
        have some : param.vector ≠ [] := same ▸ none
        have two : ¬ (param.emptied (partsRecord offset [param.vector])).external.length ≠
            2 := by
          rw [Blob.external_emptied, partsRecord_singleton some, not_not]
          rfl
        have lost : (loadBlob contents
            (param.emptied (partsRecord offset [param.vector]))).uint8s = [] := by
          rw [partsRecord_singleton some, Blob.emptied, isHalf]
          rfl
        have restored : loadBlob contents
            (param.emptied (partsRecord offset [param.vector])) = param := by
          rcases isConst with rfl | rfl
          all_goals
            simp only [loadExternalParam] at loads
            rw [if_neg two, if_neg (not_not.mpr rfl)] at loads
            have same := (Prod.ext_iff.mp (Option.some.inj loads)).2
            exact OpParameter.Blob.inj (Op.mk.inj same).2.1
        rw [restored] at lost
        rw [Blob.vector, isHalf, lost] at some
        exact some rfl
      cases type with
      | Const => exact ⟨Or.inl rfl, differs (Or.inl rfl)⟩
      | TrainableParam => exact ⟨Or.inr rfl, differs (Or.inr rfl)⟩
      | Scale => exact absurd loads unchanged
      | LayerNorm => exact absurd loads unchanged
      | other => exact absurd loads unchanged
      | _ => cases loads
  | other => exact absurd rfl changed

theorem InMemory.load_self (inMemory : op.InMemory) {loaded : Bool × Op}
    (loads : loadExternalParam files contents op = some loaded) : loaded.2 = op := by
  obtain ⟨type, main, inputIndexes, externalPath⟩ := op
  obtain rfl : externalPath = "" := inMemory.path
  have fresh := inMemory.fresh
  have experts : ∀ linears : List (Option Convolution2D),
      (∀ expert, some expert ∈ linears → expert.external = []) → ∀ loaded,
        loadExperts contents linears = some loaded → loaded = (true, linears) := by
    intro linears fresh loaded loads
    induction linears generalizing loaded with
    | nil => exact (some.inj loads).symm
    | cons linear linears ih =>
      cases linear with
      | none => nomatch loads
      | some expert =>
        have isFresh : loadExpert contents expert = (true, expert) := by
          rw [loadExpert, fresh expert mem_cons_self]
        rw [loadExperts, isFresh] at loads
        obtain ⟨others, isOthers, rfl⟩ := map_eq_some_iff.mp loads
        rw [ih (fun expert member => fresh expert (mem_cons_of_mem _ member)) others isOthers]
  cases type with
  | IndexedLinear =>
    simp only [loadExternalParam, ne_eq, not_true_eq_false, if_false] at loads
    split at loads
    · split at loads
      · next param valid =>
          obtain ⟨linears, isLinears, rfl⟩ := map_eq_some_iff.mp loads
          rw [experts param.linears inMemory.experts_fresh linears isLinears]
          rfl
      · nomatch loads
    · exact (Prod.ext_iff.mp (some.inj loads)).2.symm
  | Scale => exact (Prod.ext_iff.mp (some.inj loads)).2.symm
  | LayerNorm => exact (Prod.ext_iff.mp (some.inj loads)).2.symm
  | other => exact (Prod.ext_iff.mp (some.inj loads)).2.symm
  | Const =>
    cases main with
    | Blob param =>
      have isEmpty : param.external.length ≠ 2 := by
        rw [fresh _ (mem_singleton_self _)]
        decide
      simp only [loadExternalParam, if_pos isEmpty] at loads
      exact (Prod.ext_iff.mp (some.inj loads)).2.symm
    | _ => nomatch loads
  | TrainableParam =>
    cases main with
    | Blob param =>
      have isEmpty : param.external.length ≠ 2 := by
        rw [fresh _ (mem_singleton_self _)]
        decide
      simp only [loadExternalParam, if_pos isEmpty] at loads
      exact (Prod.ext_iff.mp (some.inj loads)).2.symm
    | _ => nomatch loads
  | _ =>
    cases main with
    | Convolution2D param =>
      have isEmpty : param.external.length ≠ 3 := by
        rw [fresh _ (mem_singleton_self _)]
        decide
      simp only [loadExternalParam, if_pos isEmpty] at loads
      exact (Prod.ext_iff.mp (some.inj loads)).2.symm
    | _ => nomatch loads

end Op

/-! ## Nets -/

/-- The bytes that ops move. -/
def opsPayload (ops : List Op) : List Byte := ops.flatMap Op.payload

theorem opsPayload_append (ops ops' : List Op) :
    opsPayload (ops ++ ops') = opsPayload ops ++ opsPayload ops' :=
  flatMap_append

/-- The ops that are left. -/
def storedOps : Nat → List Op → List Op
  | _, [] => []
  | offset, op :: ops => op.stored offset :: storedOps (offset + op.payload.length) ops

theorem storedOps_append (offset : Nat) (ops ops' : List Op) :
    storedOps offset (ops ++ ops') =
      storedOps offset ops ++ storedOps (offset + (opsPayload ops).length) ops' := by
  induction ops generalizing offset with
  | nil => rfl
  | cons op ops ih =>
    rw [cons_append, storedOps, ih, storedOps, cons_append, opsPayload,
      opsPayload, flatMap_cons, length_append, add_assoc]

theorem storeOps_eq (out : Output) {ops : List Op} (inMemory : ∀ op ∈ ops, op.InMemory) :
    storeOps out ops = (out.append (opsPayload ops), storedOps out.offset ops) := by
  induction ops generalizing out with
  | nil => rw [storeOps, opsPayload, flatMap_nil, Output.append_nil, storedOps]
  | cons op ops ih =>
    have others := fun op member => inMemory op (mem_cons_of_mem _ member)
    rw [storeOps, (inMemory op mem_cons_self).removeAndStoreParam_eq]
    dsimp only
    rw [ih _ others, Output.append_append]
    rfl

theorem tiles_storedOps (offset : Nat) {ops : List Op} (inMemory : ∀ op ∈ ops, op.InMemory) :
    Tiles recordPlace recordSize offset ((storedOps offset ops).flatMap Op.records)
      (offset + (opsPayload ops).length) := by
  induction ops generalizing offset with
  | nil => exact (add_zero offset).symm
  | cons op ops ih =>
    have first := (inMemory op mem_cons_self).tiles_stored offset
    have others := ih (offset + op.payload.length) fun op member =>
      inMemory op (mem_cons_of_mem _ member)
    rw [storedOps, flatMap_cons, opsPayload, flatMap_cons, length_append, ← add_assoc]
    exact first.append others

/-- Each moved op of a list comes back if and only if the loader has a case for it. -/
theorem forall₂_load_iff {ops : List Op} (inMemory : ∀ op ∈ ops, op.InMemory)
    (holds : Holds contents offset (opsPayload ops)) :
    List.Forall₂ (fun op stored => stored ≠ op →
          loadExternalParam files contents stored = some (true, op))
        ops (storedOps offset ops) ↔
      ∀ op ∈ ops, op.Moved → op.Restorable := by
  induction ops generalizing offset with
  | nil => exact iff_of_true .nil fun op member => absurd member not_mem_nil
  | cons op ops ih =>
    have first := inMemory op mem_cons_self
    rw [opsPayload, flatMap_cons] at holds
    rw [storedOps, forall₂_cons, forall_mem_cons,
      ih (fun op member => inMemory op (mem_cons_of_mem _ member)) holds.right,
      Ne, first.stored_eq_iff, not_not]
    refine and_congr_left fun _ => forall_congr' fun moved => ?_
    exact ⟨first.restorable_of_load moved, fun restorable =>
      first.load_stored moved restorable holds.left⟩

/-- An op after it was loaded, or as it was where that fails. -/
def reloadOp (files : String → List Byte) (contents : List Byte) (op : Op) : Op :=
  ((loadExternalParam files contents op).map Prod.snd).getD op

theorem map_reloadOp {ops : List Op} (inMemory : ∀ op ∈ ops, op.InMemory)
    (restorable : ∀ op ∈ ops, op.Moved → op.Restorable)
    (holds : Holds contents offset (opsPayload ops)) :
    (storedOps offset ops).map (reloadOp files contents) = ops := by
  induction ops generalizing offset with
  | nil => rfl
  | cons op ops ih =>
    have first := inMemory op mem_cons_self
    rw [opsPayload, flatMap_cons] at holds
    have reloads : reloadOp files contents (op.stored offset) = op := by
      by_cases moved : op.Moved
      · rw [reloadOp, first.load_stored moved (restorable op mem_cons_self moved) holds.left]
        rfl
      · rw [(first.stored_eq_iff offset).mpr moved, reloadOp]
        cases loads : loadExternalParam files contents op with
        | none => rfl
        | some loaded => exact first.load_self loads
    rw [storedOps, map_cons, reloads, ih (fun op member => inMemory op (mem_cons_of_mem _ member))
        (fun op member => restorable op (mem_cons_of_mem _ member)) holds.right]

def storedSubgraphs : Nat → List (List Op) → List (List Op)
  | _, [] => []
  | offset, nodes :: subgraphs =>
    storedOps offset nodes :: storedSubgraphs (offset + (opsPayload nodes).length) subgraphs

theorem flatten_storedSubgraphs (offset : Nat) (subgraphs : List (List Op)) :
    (storedSubgraphs offset subgraphs).flatten = storedOps offset subgraphs.flatten := by
  induction subgraphs generalizing offset with
  | nil => rfl
  | cons nodes subgraphs ih =>
    rw [storedSubgraphs, flatten_cons, ih, flatten_cons, storedOps_append]

theorem storeSubgraphs_eq (out : Output) {subgraphs : List (List Op)}
    (inMemory : ∀ op ∈ subgraphs.flatten, op.InMemory) :
    storeSubgraphs out subgraphs =
      (out.append (opsPayload subgraphs.flatten), storedSubgraphs out.offset subgraphs) := by
  induction subgraphs generalizing out with
  | nil =>
    rw [storeSubgraphs, flatten_nil, opsPayload, flatMap_nil, Output.append_nil, storedSubgraphs]
  | cons nodes subgraphs ih =>
    rw [flatten_cons] at inMemory
    have others := fun op member => inMemory op (mem_append_right _ member)
    rw [storeSubgraphs, storeOps_eq out fun op member => inMemory op (mem_append_left _ member)]
    dsimp only
    rw [ih _ others, Output.append_append, flatten_cons, opsPayload_append]
    rfl

theorem map_reloadOp_subgraphs {subgraphs : List (List Op)}
    (inMemory : ∀ op ∈ subgraphs.flatten, op.InMemory)
    (restorable : ∀ op ∈ subgraphs.flatten, op.Moved → op.Restorable)
    (holds : Holds contents offset (opsPayload subgraphs.flatten)) :
    (storedSubgraphs offset subgraphs).map (List.map (reloadOp files contents)) =
      subgraphs := by
  induction subgraphs generalizing offset with
  | nil => rfl
  | cons nodes subgraphs ih =>
    rw [flatten_cons] at inMemory restorable
    rw [flatten_cons, opsPayload_append] at holds
    rw [storedSubgraphs, map_cons,
      map_reloadOp (fun op member => inMemory op (mem_append_left _ member))
        (fun op member => restorable op (mem_append_left _ member)) holds.left,
      ih (fun op member => inMemory op (mem_append_right _ member))
        (fun op member => restorable op (mem_append_right _ member)) holds.right]

namespace Net

/-- The ops in the order in which they are stored. -/
def ops (netT : Net) : List Op := netT.oplists ++ netT.subgraphs.flatten

def map (f : Op → Op) (netT : Net) : Net := ⟨netT.oplists.map f, netT.subgraphs.map (List.map f)⟩

/-- Storing and loading bring back the moved parameters, storing again gives the same
file and records, and the records tile the file. -/
structure RoundTrips (files : String → List Byte) (netT : Net) : Prop where
  restores : List.Forall₂ (fun op stored => stored ≠ op →
      loadExternalParam files (saveExternalData netT).1 stored = some (true, op))
    netT.ops (saveExternalData netT).2.ops
  again : saveExternalData
      ((saveExternalData netT).2.map (reloadOp files (saveExternalData netT).1)) =
    saveExternalData netT
  tiles : Tiles recordPlace recordSize 0 ((saveExternalData netT).2.ops.flatMap Op.records)
    (saveExternalData netT).1.length

variable {netT : Net}

theorem saveExternalData_eq (inMemory : ∀ op ∈ netT.ops, op.InMemory) :
    saveExternalData netT = (opsPayload netT.ops, ⟨storedOps 0 netT.oplists,
          storedSubgraphs (opsPayload netT.oplists).length netT.subgraphs⟩) := by
  rw [saveExternalData, storeOps_eq _ fun op member => inMemory op (mem_append_left _ member)]
  dsimp only
  rw [storeSubgraphs_eq _ fun op member => inMemory op (mem_append_right _ member)]
  dsimp only [Output.append]
  rw [nil_append, zero_add, ops, opsPayload_append]

theorem ops_saveExternalData (inMemory : ∀ op ∈ netT.ops, op.InMemory) :
    (saveExternalData netT).2.ops = storedOps 0 netT.ops := by
  rw [saveExternalData_eq inMemory, ops, flatten_storedSubgraphs, ops, storedOps_append,
    zero_add]

/-- A net that has its parameters itself makes the round trip if and only if the loader
has a case for each op that is moved. -/
theorem netT_roundTrips_iff (files : String → List Byte) (inMemory : ∀ op ∈ netT.ops, op.InMemory) :
    netT.RoundTrips files ↔ ∀ op ∈ netT.ops, op.Moved → op.Restorable := by
  have isFile : (saveExternalData netT).1 = opsPayload netT.ops := by
    rw [saveExternalData_eq inMemory]
  have isStored := ops_saveExternalData inMemory
  have holds : Holds (opsPayload netT.ops) 0 (opsPayload netT.ops) :=
    ⟨[], [], by rw [nil_append, append_nil], rfl⟩
  have loads := @forall₂_load_iff (opsPayload netT.ops) 0 files netT.ops inMemory holds
  constructor
  · intro roundTrips
    have restores := roundTrips.restores
    rw [isStored, isFile] at restores
    exact loads.mp restores
  · intro restorable
    refine ⟨?_, ?_, ?_⟩
    · rw [isStored, isFile]
      exact loads.mpr restorable
    · have left := fun op member => inMemory op (mem_append_left _ member)
      have right := fun op member => inMemory op (mem_append_right _ member)
      have holds' : Holds (opsPayload netT.ops) 0
          (opsPayload netT.oplists ++ opsPayload netT.subgraphs.flatten) :=
        opsPayload_append netT.oplists netT.subgraphs.flatten ▸ holds
      have nodes := holds'.right
      rw [zero_add] at nodes
      have back : (saveExternalData netT).2.map
          (reloadOp files (saveExternalData netT).1) = netT := by
        rw [isFile, saveExternalData_eq inMemory, map,
          map_reloadOp left (fun op member => restorable op (mem_append_left _ member)) holds'.left,
          map_reloadOp_subgraphs right (fun op member => restorable op (mem_append_right _ member))
            nodes]
      rw [back]
    · rw [isStored, isFile]
      have tiles := tiles_storedOps 0 inMemory
      rwa [zero_add] at tiles

/-- A float convolution, and a quantised one. -/
def floatConvolution : Op := ⟨.Convolution, .Convolution2D ⟨[1, 2], [3], none, []⟩, [0], ""⟩

def quantised : Op :=
  ⟨.Convolution, .Convolution2D ⟨[], [3], some ⟨[1, 2], [4], [], [], .FP32⟩, []⟩, [0], ""⟩

theorem roundTrips_floatConvolution :
    RoundTrips (fun _ => []) ⟨[floatConvolution, floatConvolution], [[floatConvolution]]⟩ :=
  (netT_roundTrips_iff (fun _ => []) fun op member => by
    obtain rfl : op = floatConvolution := by simpa [ops] using member
    exact ⟨rfl, fun external member => mem_singleton.mp member⟩).mpr
    fun op member _ => by
      obtain rfl : op = floatConvolution := by simpa [ops] using member
      exact ⟨Or.inl rfl, rfl, cons_ne_nil _ _, cons_ne_nil _ _⟩

/-- A quantised convolution has a record with five entries and is not loaded. -/
theorem not_roundTrips_quantised : ¬ RoundTrips (fun _ => []) ⟨[quantised], []⟩ := by
  intro roundTrips
  have restores := roundTrips.restores
  rcases restores with _ | ⟨restored, -⟩
  exact absurd (restored (by decide)) (by decide)

end Net

end Mnn.Converter
