import Mnn.Converter.ExternalRecords

/-!
# Stored ops

What an op moves to the file and what is left of it.  The records follow each other like
the bytes.
-/

namespace Mnn.Converter

open Mnn.Foundation BitFields RawImages SplitRanges
open List
open Convolution2D

/-! ## Stored ops -/

/-- The bytes of the experts that are there. -/
def expertsPayload (linears : List (Option Convolution2D)) : List Byte :=
  linears.flatMap fun linear => (linear.map payload).getD []

/-- The records of a parameter. -/
def OpParameter.externals : OpParameter → List (List Nat)
  | .IndexedLinearParam param => param.linears.filterMap (Option.map Convolution2D.external)
  | .Convolution2D param => [param.external]
  | .Scale param => [param.external]
  | .LayerNorm param => [param.external]
  | .Blob param => [param.external]
  | .other _ => []

namespace Op

/-- The bytes that an op moves to the file. -/
def payload (op : Op) : List Byte :=
  match op.main with
  | .IndexedLinearParam param => expertsPayload param.linears
  | .Convolution2D param => if 1 < op.inputIndexes.length then [] else param.payload
  | .Scale param => image param.scaleData ++ image param.biasData
  | .LayerNorm param =>
    if param.gamma = [] ∨ param.beta = [] then []
    else image param.gamma ++ image param.beta
  | .Blob param => param.payload
  | .other _ => []

/-- The records that are not empty. -/
def records (op : Op) : List (List Nat) :=
  op.main.externals.filter fun external => !external.isEmpty

/-- An op that has its parameters itself. -/
structure InMemory (op : Op) : Prop where
  path : op.externalPath = ""
  fresh : ∀ external ∈ op.main.externals, external = []

/-- Something is moved, or a record is kept of vectors that are empty. -/
def Moved (op : Op) : Prop :=
  op.payload ≠ [] ∨
    match op.main with
    | .Convolution2D param => op.inputIndexes.length ≤ 1 ∧ param.quanParameter.isSome
    | .IndexedLinearParam param => ∃ expert, some expert ∈ param.linears
    | _ => False

/-- There is a case for the op in the switch of the loader, which reads what was stored:
a float convolution with weight and bias, a constant that is no `bfloat16`, or experts that
all have a weight. -/
def Restorable (op : Op) : Prop :=
  match op.main with
  | .Convolution2D param =>
    (op.type = .Convolution ∨ op.type = .Deconvolution ∨ op.type = .ConvolutionDepthwise) ∧
      param.quanParameter = none ∧ param.weight ≠ [] ∧ param.bias ≠ []
  | .Blob param =>
    (op.type = .Const ∨ op.type = .TrainableParam) ∧ param.dataType ≠ .DT_BFLOAT16
  | .IndexedLinearParam param =>
    op.type = .IndexedLinear ∧ ∀ linear ∈ param.linears, ∃ expert, linear = some expert ∧
      match expert.quanParameter with
      | some quan => quan.buffer ≠ []
      | none => expert.weight ≠ []
  | _ => False

end Op

/-- The experts with their records. -/
def storedExperts : Nat → List (Option Convolution2D) → List (Option Convolution2D)
  | _, [] => []
  | offset, none :: linears => none :: storedExperts offset linears
  | offset, some expert :: linears =>
    some (expert.emptied (expert.record offset)) ::
      storedExperts (offset + expert.payload.length) linears

/-- The record of a convolution that is no expert. -/
def Convolution2D.external' (param : Convolution2D) (offset : Nat) : List Nat :=
  if param.quanParameter.isSome then param.record offset
  else partsRecord offset [image param.weight, image param.bias]

/-- The op that is left. -/
def Op.stored (op : Op) (offset : Nat) : Op :=
  match op.main with
  | .IndexedLinearParam param =>
    { op with main := .IndexedLinearParam ⟨storedExperts offset param.linears⟩ }
  | .Convolution2D param =>
    if 1 < op.inputIndexes.length then op
    else { op with main := .Convolution2D (param.emptied (param.external' offset)) }
  | .Scale param =>
    let external := partsRecord offset [image param.scaleData, image param.biasData]
    { op with main := .Scale ⟨[], [], external⟩ }
  | .LayerNorm param =>
    let external := partsRecord offset [image param.gamma, image param.beta]
    if param.gamma = [] ∨ param.beta = [] then op
    else { op with main := .LayerNorm ⟨[], [], external⟩ }
  | .Blob param =>
    if param.payload = [] then op
    else { op with main := .Blob (param.emptied (partsRecord offset [param.vector])) }
  | .other _ => op

theorem storeExperts_eq (out : Output) {linears : List (Option Convolution2D)}
    (fresh : ∀ expert, some expert ∈ linears → expert.external = []) :
    storeExperts out linears =
      (out.append (expertsPayload linears), storedExperts out.offset linears) := by
  induction linears generalizing out with
  | nil =>
    rw [storeExperts, expertsPayload, flatMap_nil, Output.append_nil, storedExperts]
  | cons linear linears ih =>
    have others := fun expert member => fresh expert (mem_cons_of_mem _ member)
    cases linear with
    | none =>
      rw [storeExperts, ih out others]
      rfl
    | some expert =>
      rw [storeExperts, storeExpert_eq out (fresh expert mem_cons_self)]
      dsimp only
      rw [ih _ others, Output.append_append]
      rfl

namespace Op

variable {op : Op}

theorem InMemory.removeAndStoreParam_eq (inMemory : op.InMemory) (out : Output) :
    removeAndStoreParam out op = (out.append op.payload, op.stored out.offset) := by
  obtain ⟨type, main, inputIndexes, externalPath⟩ := op
  obtain ⟨path, fresh⟩ := inMemory
  rw [removeAndStoreParam, if_neg (not_not.mpr path)]
  cases main with
  | IndexedLinearParam param =>
    have experts : ∀ expert, some expert ∈ param.linears → expert.external = [] :=
      fun expert member => fresh _ (mem_filterMap.mpr ⟨some expert, member, rfl⟩)
    dsimp only
    rw [storeExperts_eq out experts]
    rfl
  | Convolution2D param =>
    have fresh := fresh _ (mem_singleton_self _)
    simp only [payload, stored]
    split
    · rw [Output.append_nil]
    · cases isFloat : param.quanParameter with
      | some quan =>
        have isSome : param.quanParameter.isSome := by rw [isFloat]; rfl
        rw [storeConvolution2D_of_some out fresh isSome, external', if_pos isSome]
      | none =>
        rw [storeConvolution2D_of_none out fresh isFloat, external',
          if_neg (by rw [isFloat]; decide)]
  | Scale param =>
    dsimp only
    rw [storeScale_eq out (fresh _ (mem_singleton_self _))]
    rfl
  | LayerNorm param =>
    have fresh := fresh _ (mem_singleton_self _)
    simp only [payload, stored]
    split
    · next some =>
        have skipped : storeLayerNorm out param = (out, param) := by
          rw [storeLayerNorm, if_neg]
          rw [Bool.and_eq_true, Bool.not_eq_true', Bool.not_eq_true',
            isEmpty_eq_false_iff, isEmpty_eq_false_iff]
          exact fun both => some.elim both.1 both.2
        rw [skipped, Output.append_nil]
    · next some =>
        rw [not_or] at some
        rw [storeLayerNorm_eq out fresh some.1 some.2]
  | Blob param =>
    simp only [payload, stored]
    rw [storeBlob_eq out (fresh _ (mem_singleton_self _))]
    split <;> rfl
  | other =>
    simp only [payload, stored, Output.append_nil]

end Op

/-! ## Records -/

/-- The place of a record, and the size of what it is for. -/
def recordPlace (record : List Nat) : Nat := record.headD 0

def recordSize (record : List Nat) : Nat := record.tail.sum

theorem tiles_record {record : List Nat} {offset size : Nat}
    (isPlace : record ≠ [] → recordPlace record = offset) (isSize : recordSize record = size) :
    Tiles recordPlace recordSize offset ([record].filter fun external => !external.isEmpty)
      (offset + size) := by
  subst isSize
  cases record with
  | nil => exact (add_zero offset).symm
  | cons first sizes => exact ⟨isPlace (cons_ne_nil _ _), rfl⟩

theorem recordPlace_partsRecord {offset : Nat} {parts : List (List Byte)}
    (some : partsRecord offset parts ≠ []) :
    recordPlace (partsRecord offset parts) = offset := by
  rw [partsRecord] at some ⊢
  split at some
  · exact absurd rfl some
  · rfl

variable (param : Convolution2D)

@[simp]
theorem Convolution2D.external_emptied (external : List Nat) :
    (param.emptied external).external = external := by
  rw [emptied]
  split <;> rfl

variable (offset : Nat)

theorem recordPlace_record :
    recordPlace (param.record offset) = offset := by
  rw [record]
  split <;> rfl

theorem Convolution2D.record_ne_nil :
    param.record offset ≠ [] := by
  rw [record]
  split <;> exact cons_ne_nil _ _

theorem Convolution2D.tiles_external' :
    Tiles recordPlace recordSize offset
      ([param.external' offset].filter fun external => !external.isEmpty)
      (offset + param.payload.length) := by
  rw [external']
  split
  · exact tiles_record (fun _ => recordPlace_record param offset) (param.sum_record offset)
  · next isFloat =>
      refine tiles_record recordPlace_partsRecord ?_
      rw [Option.not_isSome_iff_eq_none] at isFloat
      rw [recordSize, sum_partsRecord, payload, isFloat]
      simp only [flatten_cons, flatten_nil, append_nil]

theorem tiles_storedExperts (linears : List (Option Convolution2D)) :
    Tiles recordPlace recordSize offset
      (((storedExperts offset linears).filterMap (Option.map external)).filter
        fun external => !external.isEmpty)
      (offset + (expertsPayload linears).length) := by
  induction linears generalizing offset with
  | nil => exact (add_zero offset).symm
  | cons linear linears ih =>
    cases linear with
    | none => exact ih offset
    | some expert =>
      have record : Tiles recordPlace recordSize offset
          ([(expert.emptied (expert.record offset)).external].filter
            fun external => !external.isEmpty) (offset + expert.payload.length) := by
        rw [external_emptied]
        exact tiles_record (fun _ => recordPlace_record expert offset) (expert.sum_record offset)
      have tiles := record.append (ih (offset + expert.payload.length))
      rw [add_assoc, ← filter_append, ← length_append] at tiles
      exact tiles

namespace Op

variable {op : Op}

theorem InMemory.records_eq (inMemory : op.InMemory) : op.records = [] := by
  rw [records, filter_eq_nil_iff]
  intro external member
  rw [inMemory.fresh external member]
  decide

/-- The records of an op follow each other, and are for all that was moved. -/
theorem InMemory.tiles_stored (inMemory : op.InMemory) (offset : Nat) :
    Tiles recordPlace recordSize offset (op.stored offset).records
      (offset + op.payload.length) := by
  have unchanged : Tiles recordPlace recordSize offset op.records
      (offset + ([] : List Byte).length) := by
    rw [inMemory.records_eq]
    exact (add_zero offset).symm
  obtain ⟨type, main, inputIndexes, externalPath⟩ := op
  cases main with
  | IndexedLinearParam param => exact tiles_storedExperts offset param.linears
  | Convolution2D param =>
    simp only [stored, payload]
    split
    · exact unchanged
    · show Tiles recordPlace recordSize offset
        ([(param.emptied (param.external' offset)).external].filter _) _
      rw [external_emptied]
      exact param.tiles_external' offset
  | Scale param =>
    refine tiles_record recordPlace_partsRecord ?_
    rw [recordSize, sum_partsRecord]
    simp only [flatten_cons, flatten_nil, append_nil, payload]
  | LayerNorm param =>
    simp only [stored, payload]
    split
    · exact unchanged
    · refine tiles_record recordPlace_partsRecord ?_
      rw [recordSize, sum_partsRecord]
      simp only [flatten_cons, flatten_nil, append_nil]
  | Blob param =>
    simp only [stored, payload]
    split
    · next none =>
        rw [none]
        exact unchanged
    · next moved =>
        have whole : param.payload = param.vector := by
          rw [Blob.payload] at moved ⊢
          split at moved
          · exact absurd rfl moved
          · next large => rw [if_neg large]
        have isExternal : (param.emptied (partsRecord offset [param.vector])).external =
            partsRecord offset [param.vector] := by
          rw [Blob.emptied]
          split <;> rfl
        show Tiles recordPlace recordSize offset
          ([(param.emptied (partsRecord offset [param.vector])).external].filter _) _
        rw [isExternal]
        refine tiles_record recordPlace_partsRecord ?_
        rw [recordSize, sum_partsRecord, whole]
        simp only [flatten_cons, flatten_nil, append_nil]
  | other => exact (add_zero offset).symm

theorem InMemory.stored_eq_iff (inMemory : op.InMemory) (offset : Nat) :
    op.stored offset = op ↔ ¬ op.Moved := by
  obtain ⟨type, main, inputIndexes, externalPath⟩ := op
  have fresh := inMemory.fresh
  constructor
  · rintro same (some | some)
    · have tiles := inMemory.tiles_stored offset
      rw [same, inMemory.records_eq] at tiles
      exact some (length_eq_zero_iff.mp (Nat.add_eq_left.mp tiles.symm))
    · have none := inMemory.records_eq
      rw [← same] at none
      cases main with
      | IndexedLinearParam param =>
        obtain ⟨expert, member⟩ := some
        rw [records, filter_eq_nil_iff] at none
        have isRecord : ∀ (offset : Nat) (linears : List (Option Convolution2D)),
            Option.some expert ∈ linears → ∃ external ∈
              (storedExperts offset linears).filterMap (Option.map Convolution2D.external),
              external ≠ [] := by
          intro offset linears member
          induction linears generalizing offset with
          | nil => exact absurd member not_mem_nil
          | cons linear linears ih =>
            cases linear with
            | none =>
              exact ih offset ((mem_cons.mp member).resolve_left (nomatch ·))
            | some first =>
              refine ⟨_, mem_cons_self, ?_⟩
              rw [Convolution2D.external_emptied]
              exact first.record_ne_nil offset
        obtain ⟨external, isExternal, isRecord⟩ := isRecord offset param.linears member
        refine none external isExternal ?_
        rwa [Bool.not_eq_true', isEmpty_eq_false_iff]
      | Convolution2D param =>
        obtain ⟨few, isQuantised⟩ := some
        simp only [stored] at none
        rw [if_neg (not_lt.mpr few), records, filter_eq_nil_iff] at none
        refine none _ (mem_singleton_self _) ?_
        rw [external_emptied, external', if_pos isQuantised,
          Bool.not_eq_true', isEmpty_eq_false_iff]
        exact param.record_ne_nil offset
      | _ => exact some
  · intro still
    have none : payload ⟨type, main, inputIndexes, externalPath⟩ = [] :=
      not_not.mp fun some => still (Or.inl some)
    have still := fun some => still (Or.inr some)
    cases main with
    | IndexedLinearParam param =>
      have same : ∀ (offset : Nat) (linears : List (Option Convolution2D)),
          (∀ expert, some expert ∉ linears) → storedExperts offset linears = linears := by
        intro offset linears noExpert
        induction linears with
        | nil => rfl
        | cons linear linears ih =>
          cases linear with
          | none =>
            rw [storedExperts, ih fun expert member =>
              noExpert expert (mem_cons_of_mem _ member)]
          | some expert => exact absurd mem_cons_self (noExpert expert)
      simp only [stored, same offset param.linears fun expert member =>
        still ⟨expert, member⟩]
    | Convolution2D param =>
      simp only [stored]
      split
      · rfl
      · next few =>
          have isFloat : param.quanParameter = Option.none := by
            rw [← Option.not_isSome_iff_eq_none]
            exact fun isQuantised => still ⟨Nat.le_of_not_lt few, isQuantised⟩
          simp only [payload, if_neg few, Convolution2D.payload, isFloat,
            append_eq_nil_iff, image_eq_nil] at none
          have fresh := fresh _ (mem_singleton_self _)
          obtain ⟨weight, bias, quanParameter, external⟩ := param
          obtain rfl := isFloat
          obtain rfl := fresh
          obtain ⟨rfl, rfl⟩ := none
          rfl
    | Scale param =>
      have fresh := fresh _ (mem_singleton_self _)
      obtain ⟨scaleData, biasData, external⟩ := param
      obtain rfl := fresh
      simp only [payload, append_eq_nil_iff, image_eq_nil] at none
      obtain ⟨rfl, rfl⟩ := none
      rfl
    | LayerNorm param =>
      simp only [stored]
      split
      · rfl
      · next both =>
          simp only [payload, if_neg both, append_eq_nil_iff, image_eq_nil] at none
          exact absurd (Or.inl none.1) both
    | Blob param =>
      simp only [stored]
      exact if_pos none
    | other => rfl

end Op

end Mnn.Converter
