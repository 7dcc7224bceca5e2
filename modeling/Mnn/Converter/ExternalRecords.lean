import Mnn.Converter.RemoveParams
import Mnn.Foundation.SplitRanges

/-!
# Records of external parameters

What an op moves to the file, the record it keeps, and how the vectors are read again
where the bytes lie.
-/

namespace Mnn.Converter

open Mnn.Foundation BitFields RawImages SplitRanges
open List
open Convolution2D

/-! ## Bytes in a file -/

/-- The bytes lie at a place of the file. -/
def Holds (contents : List Byte) (place : Nat) (bytes : List Byte) : Prop :=
  ∃ front rest, contents = front ++ (bytes ++ rest) ∧ front.length = place

section Holds

variable {contents bytes bytes' : List Byte} {place : Nat}

theorem Holds.left (holds : Holds contents place (bytes ++ bytes')) :
    Holds contents place bytes := by
  obtain ⟨front, rest, rfl, isPlace⟩ := holds
  exact ⟨front, bytes' ++ rest, by rw [append_assoc], isPlace⟩

theorem Holds.right (holds : Holds contents place (bytes ++ bytes')) :
    Holds contents (place + bytes.length) bytes' := by
  obtain ⟨front, rest, rfl, rfl⟩ := holds
  refine ⟨front ++ bytes, rest, ?_, length_append⟩
  rw [append_assoc, append_assoc]

theorem Holds.le (holds : Holds contents place bytes) : place + bytes.length ≤ contents.length := by
  obtain ⟨front, rest, rfl, rfl⟩ := holds
  rw [length_append, length_append]
  exact Nat.add_le_add_left (Nat.le_add_right ..) _

theorem Holds.take_drop (holds : Holds contents place bytes) :
    (contents.drop place).take bytes.length = bytes := by
  obtain ⟨front, rest, rfl, rfl⟩ := holds
  rw [drop_left, take_left]

end Holds

/-- The output with more bytes, which are counted. -/
def Output.append (out : Output) (bytes : List Byte) : Output :=
  ⟨out.fs ++ bytes, out.offset + bytes.length⟩

@[simp]
theorem Output.append_nil (out : Output) : out.append [] = out := by
  rw [append, List.append_nil, List.length_nil, add_zero]

variable (out : Output)

theorem Output.append_append (bytes bytes' : List Byte) :
    (out.append bytes).append bytes' = out.append (bytes ++ bytes') := by
  simp only [append, append_assoc, length_append, add_assoc]

/-! ## Vectors -/

section Vectors

variable {T : Type} [Plain T]

theorem storeWeight_eq (weight : List T) (external : List Nat) (check : Bool) :
    storeWeight out weight external check = (out.append (image weight), [],
        if weight.isEmpty && check then external
        else (if external.isEmpty then external ++ [out.offset] else external) ++
          [(image weight).length]) := by
  rw [storeWeight]
  split
  · next skipped =>
      rw [Bool.and_eq_true, List.isEmpty_iff] at skipped
      obtain ⟨rfl, -⟩ := skipped
      rw [image_nil, Output.append_nil]
  · rw [Output.append, length_image]

variable [Zero T] {fl : FileLoader} {values : List T}

theorem overwrite_resize (values : List T) :
    overwrite (resize ([] : List T) ((image values).length / Plain.width T))
      (image values) = values := by
  have count : (image values).length / Plain.width T = values.length := by
    rw [length_image, Nat.mul_div_cancel _ Plain.width_pos]
  rw [count, resize, take_nil, nil_append, length_nil, Nat.sub_zero,
    overwrite, length_replicate, ofImages_image]

omit [Zero T] in
theorem FileLoader.read_eq (holds : Holds fl.contents fl.place (image values)) :
    fl.read (image values).length =
      (image values, true, ⟨fl.contents, fl.place + (image values).length⟩) := by
  rw [read, holds.take_drop, decide_eq_true rfl]

theorem loadExternalData_eq (holds : Holds fl.contents fl.place (image values)) :
    loadExternalData fl ([] : List T) (image values).length =
      (⟨fl.contents, fl.place + (image values).length⟩, values) := by
  rw [loadExternalData]
  split
  · next none =>
      rw [length_eq_zero_iff, image_eq_nil] at none
      rw [none, image_nil, length_nil, add_zero]
  · rw [FileLoader.read_eq holds]
    exact Prod.ext rfl (overwrite_resize values)

theorem loadIndexedExternalData_eq (holds : Holds fl.contents fl.place (image values)) :
    loadIndexedExternalData true fl ([] : List T) (image values).length =
      (true, ⟨fl.contents, fl.place + (image values).length⟩, values) := by
  have multiple : (image values).length % Plain.width T = 0 := by
    rw [length_image, Nat.mul_mod_left]
  rw [loadIndexedExternalData, multiple, if_neg (by decide)]
  dsimp only
  split
  · next none =>
      rw [length_eq_zero_iff, image_eq_nil] at none
      rw [none, image_nil, length_nil, Nat.zero_div, add_zero]
      rfl
  · rw [FileLoader.read_eq holds]
    exact Prod.ext rfl (Prod.ext rfl (overwrite_resize values))

end Vectors

/-! ## What is moved -/

/-- The scales that are stored. -/
def IDSTQuan.scales (quan : IDSTQuan) : List Byte :=
  match quan.scaleStorage with
  | .FP16 => image quan.alphaFp16
  | .FP32 => image quan.alpha

def IDSTQuan.emptied (quan : IDSTQuan) : IDSTQuan :=
  match quan.scaleStorage with
  | .FP16 => { quan with buffer := [], alphaFp16 := [], index := [] }
  | .FP32 => { quan with buffer := [], alpha := [], index := [] }

namespace Convolution2D

def payload (param : Convolution2D) : List Byte :=
  match param.quanParameter with
  | some quan => image quan.buffer ++ (quan.scales ++ (image param.bias ++ image quan.index))
  | none => image param.weight ++ image param.bias

/-- The convolution without what is moved. -/
def emptied (param : Convolution2D) (external : List Nat) : Convolution2D :=
  match param.quanParameter with
  | some quan =>
    { param with bias := [], external := external, quanParameter := some quan.emptied }
  | none => { param with weight := [], bias := [], external := external }

/-- A record with an entry for each vector. -/
def record (param : Convolution2D) (offset : Nat) : List Nat :=
  match param.quanParameter with
  | some quan =>
    [offset, (image quan.buffer).length, quan.scales.length, (image param.bias).length,
      (image quan.index).length]
  | none => [offset, (image param.weight).length, (image param.bias).length]

end Convolution2D

/-- A record without entries for what is empty. -/
def partsRecord (offset : Nat) (parts : List (List Byte)) : List Nat :=
  match (parts.filter fun part => !part.isEmpty).map List.length with
  | [] => []
  | size :: sizes => offset :: size :: sizes

theorem storeConvolution2D_of_some {param : Convolution2D}
    (fresh : param.external = []) (isQuantised : param.quanParameter.isSome) :
    storeConvolution2D out param =
      (out.append param.payload, param.emptied (param.record out.offset)) := by
  obtain ⟨weight, bias, quanParameter, external⟩ := param
  obtain ⟨quan, rfl⟩ := Option.isSome_iff_exists.mp isQuantised
  obtain rfl := fresh
  obtain ⟨buffer, alpha, alphaFp16, index, scaleStorage⟩ := quan
  cases scaleStorage with
  | FP32 =>
    simp only [storeConvolution2D, storeWeight_eq, Output.append_append, Bool.and_false,
      payload, emptied, record, IDSTQuan.scales,
      IDSTQuan.emptied, append_assoc]
    rfl
  | FP16 =>
    simp only [storeConvolution2D, storeWeight_eq, Output.append_append, Bool.and_false,
      payload, emptied, record, IDSTQuan.scales,
      IDSTQuan.emptied, append_assoc]
    rfl

theorem storeConvolution2D_of_none {param : Convolution2D}
    (fresh : param.external = []) (isFloat : param.quanParameter = none) :
    storeConvolution2D out param = (out.append param.payload,
        param.emptied (partsRecord out.offset [image param.weight, image param.bias])) := by
  obtain ⟨weight, bias, quanParameter, external⟩ := param
  obtain rfl := isFloat
  obtain rfl := fresh
  simp only [storeConvolution2D, storeWeight_eq, Output.append_append, Bool.and_true,
    payload, emptied]
  cases weight with
  | nil => cases bias <;> rfl
  | cons => cases bias <;> rfl

theorem storeExpert_eq {expert : Convolution2D} (fresh : expert.external = []) :
    storeExpert out expert =
      (out.append expert.payload, expert.emptied (expert.record out.offset)) := by
  cases isFloat : expert.quanParameter with
  | some quan =>
    rw [storeExpert, isFloat]
    exact storeConvolution2D_of_some out fresh (by rw [isFloat]; rfl)
  | none =>
    obtain ⟨weight, bias, quanParameter, external⟩ := expert
    obtain rfl := isFloat
    obtain rfl := fresh
    simp only [storeExpert, storeWeight_eq, Output.append_append, Bool.and_false,
      payload, emptied, record]
    rfl

namespace Blob

/-- The bytes of the vector of the data type. -/
def vector (param : Blob) : List Byte :=
  match param.dataType with
  | .DT_FLOAT => image param.float32s
  | .DT_BFLOAT16 => image param.uint8s
  | .DT_INT32 => image param.int32s
  | .DT_UINT8 => image param.uint8s
  | .DT_INT8 => image param.int8s
  | .other _ => []

def payload (param : Blob) : List Byte :=
  if param.totalSize ≤ 1024 then [] else param.vector

def emptied (param : Blob) (external : List Nat) : Blob :=
  match param.dataType with
  | .DT_FLOAT => { param with float32s := [], external := external }
  | .DT_BFLOAT16 => { param with uint8s := [], external := external }
  | .DT_INT32 => { param with int32s := [], external := external }
  | .DT_UINT8 => { param with uint8s := [], external := external }
  | .DT_INT8 => { param with int8s := [], external := external }
  | .other _ => { param with external := external }

end Blob

theorem storeBlob_eq {param : Blob} (fresh : param.external = []) :
    storeBlob out param = (out.append param.payload,
        if param.payload = [] then param
        else param.emptied (partsRecord out.offset [param.vector])) := by
  rw [storeBlob, Blob.payload]
  split
  · rw [if_pos rfl, Output.append_nil]
  · by_cases none : param.vector = []
    · rw [if_pos none, none, Output.append_nil]
      obtain ⟨dims, dataType, uint8s, int8s, int32s, float32s, external⟩ := param
      obtain rfl := fresh
      cases dataType with
      | other => rfl
      | _ =>
        obtain rfl := image_eq_nil.mp none
        rfl
    · rw [if_neg none]
      obtain ⟨dims, dataType, uint8s, int8s, int32s, float32s, external⟩ := param
      obtain rfl := fresh
      cases dataType with
      | other => exact absurd rfl none
      | DT_FLOAT => cases float32s with
        | nil => exact absurd rfl none
        | cons => simp only [storeWeight_eq]; rfl
      | DT_INT32 => cases int32s with
        | nil => exact absurd rfl none
        | cons => simp only [storeWeight_eq]; rfl
      | DT_INT8 => cases int8s with
        | nil => exact absurd rfl none
        | cons => simp only [storeWeight_eq]; rfl
      | _ => cases uint8s with
        | nil => exact absurd rfl none
        | cons => simp only [storeWeight_eq]; rfl

theorem storeScale_eq {param : Scale} (fresh : param.external = []) :
    storeScale out param = (out.append (image param.scaleData ++ image param.biasData),
        ⟨[], [], partsRecord out.offset [image param.scaleData, image param.biasData]⟩) := by
  obtain ⟨scaleData, biasData, external⟩ := param
  obtain rfl := fresh
  simp only [storeScale, storeWeight_eq, Output.append_append, Bool.and_true]
  cases scaleData with
  | nil =>
    cases biasData with
    | nil => simp only [image_nil, append_nil]; rfl
    | cons => rfl
  | cons =>
    cases biasData with
    | nil => simp only [image_nil, append_nil]; rfl
    | cons => rfl

theorem storeLayerNorm_eq {param : LayerNorm} (fresh : param.external = [])
    (gamma : param.gamma ≠ []) (beta : param.beta ≠ []) :
    storeLayerNorm out param = (out.append (image param.gamma ++ image param.beta),
        ⟨[], [], partsRecord out.offset [image param.gamma, image param.beta]⟩) := by
  obtain ⟨values, values', external⟩ := param
  obtain rfl := fresh
  obtain ⟨_, _, rfl⟩ := exists_cons_of_ne_nil gamma
  obtain ⟨_, _, rfl⟩ := exists_cons_of_ne_nil beta
  simp only [storeLayerNorm, storeWeight_eq, Output.append_append, Bool.and_true]
  rfl

/-- The sizes of a record are those of the bytes that are moved. -/
theorem Convolution2D.sum_record (param : Convolution2D) (offset : Nat) :
    (param.record offset).tail.sum = param.payload.length := by
  rw [record, payload]
  cases param.quanParameter with
  | none => simp only [tail_cons, sum_cons, sum_nil, length_append,
      add_zero]
  | some quan => simp only [tail_cons, sum_cons, sum_nil, length_append,
      add_zero]

theorem sum_partsRecord (offset : Nat) (parts : List (List Byte)) :
    (partsRecord offset parts).tail.sum = parts.flatten.length := by
  have sizes : ((parts.filter fun part => !part.isEmpty).map List.length).sum =
      parts.flatten.length := by
    induction parts with
    | nil => rfl
    | cons part parts ih =>
      rw [flatten_cons, length_append, ← ih]
      cases part with
      | nil => rw [length_nil, zero_add]; rfl
      | cons => rfl
  rw [partsRecord, ← sizes]
  cases (parts.filter fun part => !part.isEmpty).map List.length with
  | nil => rfl
  | cons => rfl

end Mnn.Converter
