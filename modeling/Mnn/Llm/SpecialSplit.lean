import Mnn.Llm.PipelineEncode

/-!
# Splitting at special tokens

`Tokenizer::encode` splits a text at the special tokens before `PipelineTokenizer`
splits what is left at the added tokens.  The outer pass goes from byte to byte and
takes the special token that is listed first; it strips no white space.
-/

namespace Mnn.Mtok

open Mnn.Foundation BitFields ByteReader

/-- `strncmp` over the length of the token finds no difference; it reads no further
than a NUL. -/
def strncmpEq : Text → Text → Bool
  | _, [] => true
  -- the NUL behind the text
  | [], c :: _ => c = 0
  | x :: text, c :: token => x = c ∧ (c = 0 ∨ strncmpEq text token)

/-- The special token that is found at a place. -/
def specialAt (special_tokens_cache_ : List (Text × Int)) (text : Text) (i : Nat) :
    Option (Text × Int) :=
  special_tokens_cache_.find? fun pair =>
    i + pair.1.length ≤ text.length ∧ strncmpEq (text.drop i) pair.1

/-- A part of the text, or a special token. -/
inductive Segment
  | text (text : Text)
  | special (token : Text) (special_id : Int)
  deriving DecidableEq

/-- The loop of `encode` at the place `i`, behind a special token that ends at `start`. -/
def splitSpecials (special_tokens_cache_ : List (Text × Int)) (text : Text) :
    Nat → Nat → Nat → List Segment
  | 0, _, _ => []
  | fuel + 1, start, i =>
    if i < text.length then
      match specialAt special_tokens_cache_ text i with
      | some (token, special_id) =>
        (if start < i then [.text (Cutting.slice text start i)] else []) ++
          .special token special_id ::
            splitSpecials special_tokens_cache_ text fuel (i + token.length) (i + token.length)
      | none => splitSpecials special_tokens_cache_ text fuel start (i + 1)
    else if start < text.length then
      [.text (text.drop start)]
    else
      []

namespace PipelineTokenizer

variable (tokenizer : PipelineTokenizer)

def cache_special_tokens (special_tokens_ : List Int) : List (Text × Int) :=
  special_tokens_.filterMap fun id =>
    let token_str := tokenizer.decode id
    if token_str = [] then none else some (token_str, id)

/-- The ids, as the post-processor surrounds them. -/
def apply_post_processor (ids : List Int) : List Int :=
  if tokenizer.post_single_ops_ = [] then
    ids
  else
    tokenizer.post_single_ops_.flatMap fun
      | .sequenceA => ids
      | .specialToken token_id => if 0 ≤ token_id then [token_id] else []

end PipelineTokenizer

namespace Tokenizer

variable (tokenizer : PipelineTokenizer) (components : Components)

def encodeSegment : Segment → List Int
  | .text text => tokenizer.encode components text
  | .special _ special_id => [special_id]

/-- `Tokenizer::encode`, which is called from outside. -/
def encode (prefix_tokens_ special_tokens_ : List Int) (str : Text)
    (with_post_processor : Bool) : List Int :=
  let special_tokens_cache_ := tokenizer.cache_special_tokens special_tokens_
  let ids := prefix_tokens_ ++
    if special_tokens_cache_ = [] then
      tokenizer.encode components str
    else
      (splitSpecials special_tokens_cache_ str (str.length + 1) 0 0).flatMap
        (encodeSegment tokenizer components)
  if with_post_processor then tokenizer.apply_post_processor ids else ids

end Tokenizer

/-! ## What is handed on -/

/-- What has ids of its own: a text without added tokens, or a token with its ids. -/
inductive Piece
  | text (text : Text)
  | token (content : Text) (ids : List Int)
  deriving DecidableEq

def Piece.encode (encodeText : Text → List Int) : Piece → List Int
  | .text s => encodeText s
  | .token _ ids => ids

def unitPiece (added_tokens : List AddedToken) (unit_ : Unit_) : Piece :=
  if unit_.2 then
    .token unit_.1 (match added_tokens.find? fun token => token.content = unit_.1 with
        | some token => [token.id]
        | none => [])
  else
    .text unit_.1

/-- What the split at the added tokens hands on. -/
def addedPieces (added_tokens : List AddedToken) (str : Text) : List Piece :=
  (splitUnits added_tokens str str.length 0).map (unitPiece added_tokens)

def segmentPieces (added_tokens : List AddedToken) : Segment → List Piece
  | .text text => addedPieces added_tokens text
  | .special token special_id => [.token token [special_id]]

/-- What the split at the special tokens hands on, and the other one behind it. -/
def specialPieces (special_tokens_cache_ : List (Text × Int))
    (added_tokens : List AddedToken) (str : Text) : List Piece :=
  if special_tokens_cache_ = [] then
    addedPieces added_tokens str
  else
    (splitSpecials special_tokens_cache_ str (str.length + 1) 0 0).flatMap
      (segmentPieces added_tokens)

section Encode

variable (tokenizer : PipelineTokenizer) (components : Components)

theorem encodeUnit_eq (unit_ : Unit_) :
    tokenizer.encodeUnit components unit_ = (unitPiece tokenizer.added_tokens_ unit_).encode
        (tokenizer.encodeText components) := by
  obtain ⟨text, added⟩ := unit_
  cases added with
  | false => rfl
  | true => rfl

theorem encode_eq (str : Text) :
    tokenizer.encode components str = (addedPieces tokenizer.added_tokens_ str).flatMap
        (Piece.encode (tokenizer.encodeText components)) := by
  rw [PipelineTokenizer.encode, addedPieces, List.flatMap_map]
  rw [funext (encodeUnit_eq tokenizer components)]

theorem encodeSegment_eq (segment : Segment) :
    Tokenizer.encodeSegment tokenizer components segment =
      (segmentPieces tokenizer.added_tokens_ segment).flatMap
        (Piece.encode (tokenizer.encodeText components)) := by
  cases segment with
  | text text => exact encode_eq tokenizer components text
  | special token special_id => rfl

theorem tokenizer_encode_eq (special_tokens_ : List Int) (str : Text) :
    Tokenizer.encode tokenizer components [] special_tokens_ str false =
      (specialPieces (tokenizer.cache_special_tokens special_tokens_)
          tokenizer.added_tokens_ str).flatMap
        (Piece.encode (tokenizer.encodeText components)) := by
  show [] ++ _ = _
  rw [List.nil_append, specialPieces]
  by_cases none : tokenizer.cache_special_tokens special_tokens_ = []
  · rw [if_pos none, if_pos none, encode_eq]
  · rw [if_neg none, if_neg none, List.flatMap_assoc]
    rw [funext (encodeSegment_eq tokenizer components)]

end Encode

end Mnn.Mtok
