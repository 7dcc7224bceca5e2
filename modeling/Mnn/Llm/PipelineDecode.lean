import Mnn.Foundation.TreeWriter
import Mnn.Llm.MtokTotal
import Mnn.Llm.Utf8

/-!
# Decoding tokens

`PipelineTokenizer::decode` for a list of ids, which runs the chain of decoders, and
for a single id, which has a loop of its own.  A decoder whose loop comes to no end
has no result.
-/

namespace Mnn.Mtok

open Mnn.Foundation BitFields ByteReader Utf8

/-! ## Text -/

def isspace (byte : Byte) : Bool := byte = 0x20 ∨ (9 ≤ byte.toNat ∧ byte.toNat ≤ 13)

/-- Each occurrence, found from the left, is replaced; what is sought is not empty. -/
def replaceAllFuel (pattern content : Text) : Nat → Text → Text
  | 0, _ => []
  | _ + 1, [] => []
  | fuel + 1, c :: rest =>
    if pattern.isPrefixOf (c :: rest) then
      content ++ replaceAllFuel pattern content fuel ((c :: rest).drop pattern.length)
    else
      c :: replaceAllFuel pattern content fuel rest

def str_replace_all (s pattern content : Text) : Text := replaceAllFuel pattern content s.length s

def hexDigit (byte : Byte) : Option Nat :=
  if 0x30 ≤ byte.toNat ∧ byte.toNat ≤ 0x39 then some (byte.toNat - 0x30)
  else if 0x41 ≤ byte.toNat ∧ byte.toNat ≤ 0x46 then some (byte.toNat - 0x37)
  else if 0x61 ≤ byte.toNat ∧ byte.toNat ≤ 0x66 then some (byte.toNat - 0x57)
  else none

/-- A number of at most two characters, of which one may be a sign. -/
def hexNumber : Text → Option Byte
  | [] => none
  | c :: rest =>
    if c = 0x2B then
      rest.head?.bind hexDigit |>.map (BitVec.ofNat 8)
    else if c = 0x2D then
      rest.head?.bind hexDigit |>.map fun digit => -BitVec.ofNat 8 digit
    else
      match hexDigit c, rest with
      | none, _ => none
      | some high, [] => some (BitVec.ofNat 8 high)
      | some high, d :: _ =>
        -- "0x" begins a number without digits
        if c = 0x30 ∧ (d = 0x78 ∨ d = 0x58) then none
        else match hexDigit d with
          | none => some (BitVec.ofNat 8 high)
          | some digit => some (BitVec.ofNat 8 (16 * high + digit))

/-- The byte `sscanf` finds with `%02X`; blanks in front are skipped. -/
def scanHex (s : Text) : Option Byte := hexNumber (s.dropWhile isspace)

/-! ## Decoders -/

/-- The text `<0x`. -/
def byteMarker : Text := [0x3C, 0x30, 0x78]

def byteFallbackDecode (t : Text) : Text :=
  if byteMarker.isPrefixOf t then
    match scanHex (t.drop 3) with
    | some byte => [byte]
    | none => t
  else
    t

def metaspaceDecode (replacement : Text) (t : Text) : Option Text :=
  if replacement = [] ∧ t ≠ [] then none
  else some (str_replace_all t replacement [0x20])

def replaceDecode (pattern content : Text) (t : Text) : Option Text :=
  if pattern = [] then none else some (str_replace_all t pattern content)

def wordPieceDecode (pfx : Text) (tokens : List Text) : List Text :=
  let words := tokens.zipIdx.map fun token =>
    if pfx.isPrefixOf token.1 then token.1.drop pfx.length
    else if 0 < token.2 then 0x20 :: token.1
    else token.1
  [words.flatten]

def fuseDecode (tokens : List Text) : List Text :=
  if tokens.length ≤ 1 then tokens else [tokens.flatten]

def stripStart (content : Text) (start : Int) : List Text → List Text
  | [] => []
  | t :: tokens =>
    if 0 < start ∧ t ≠ [] ∧ content.isPrefixOf t then t.drop content.length :: tokens
    else t :: tokens

def stripStop (content : Text) (stop : Int) (tokens : List Text) : List Text :=
  match tokens.getLast? with
  | none => tokens
  | some t =>
    if 0 < stop ∧ t ≠ [] ∧ content.isSuffixOf t then
      tokens.dropLast ++ [t.take (t.length - content.length)]
    else
      tokens

def removePrefixSpace : List Text → List Text
  | (0x20 :: t) :: tokens => t :: tokens
  | tokens => tokens

def decodeLeaf (tokens : List Text) : DecoderLeaf → Option (List Text)
  | .byteLevel => some (tokens.map decodeCharacters)
  | .byteFallback => some (tokens.map byteFallbackDecode)
  | .metaspace replacement add_prefix_space => do
      let tokens ← tokens.mapM (metaspaceDecode replacement)
      some (if add_prefix_space then removePrefixSpace tokens else tokens)
  | .wordPiece pfx _ => some (wordPieceDecode pfx tokens)
  | .fuse => some (fuseDecode tokens)
  | .replace pattern content => tokens.mapM (replaceDecode pattern content)
  | .strip content start stop =>
    some (stripStop content stop (stripStart content start tokens))

mutual

def decode_chain (tokens : List Text) : TokenDecoder → Option (List Text)
  | .leaf value => decodeLeaf tokens value
  | .sequence children => decode_chains tokens children

def decode_chains (tokens : List Text) : List TokenDecoder → Option (List Text)
  | [] => some tokens
  | decoder :: decoders => do
      let tokens ← decode_chain tokens decoder
      decode_chains tokens decoders

end

/-! ## The tokenizer -/

/-- What a model has for an id that is no index. -/
def TokenizerModel.unk_token_ : TokenizerModel → Text
  | .bpe _ _ _ _ => []
  | .wordPiece unk_token _ _ _ _ => unk_token
  | .unigram unk_id _ id_to_token _ _ =>
    if 0 ≤ unk_id then id_to_token.getD unk_id.toNat [] else []

/-- The string of an id. -/
def TokenizerModel.idToToken (model : TokenizerModel) (id : Int) : Text :=
  if 0 ≤ id then model.id_to_token.getD id.toNat model.unk_token_
  else model.unk_token_

namespace PipelineTokenizer

variable (tokenizer : PipelineTokenizer)

/-- The leaves of the decoder, in the order in which they are read. -/
def decoderLeaves : List DecoderLeaf :=
  match tokenizer.decoder_ with
  | none => []
  | some decoder => decoder.leaves

def byte_level_ : Bool := tokenizer.decoderLeaves.contains .byteLevel

/-- The prefix of the last word piece decoder that was read. -/
def wordpiece_prefix_ : Option Text := (tokenizer.decoderLeaves.filterMap fun
    | .wordPiece pfx _ => some pfx
    | _ => none).getLast?

/-- The spaces in front of ` .`, ` ?`, ` !` and ` ,` are removed. -/
def wordpieceCleanUp (result : Text) : Text :=
  let result := str_replace_all result [0x20, 0x2E] [0x2E]
  let result := str_replace_all result [0x20, 0x3F] [0x3F]
  let result := str_replace_all result [0x20, 0x21] [0x21]
  str_replace_all result [0x20, 0x2C] [0x2C]

/-- The same for ` ' `, ` n't`, ` 'm`, ` 's`, ` 've` and ` 're`. -/
def cleanUp (result : Text) : Text :=
  let result := str_replace_all result [0x20, 0x27, 0x20] [0x27]
  let result := str_replace_all result [0x20, 0x6E, 0x27, 0x74] [0x6E, 0x27, 0x74]
  let result := str_replace_all result [0x20, 0x27, 0x6D] [0x27, 0x6D]
  let result := str_replace_all result [0x20, 0x27, 0x73] [0x27, 0x73]
  let result := str_replace_all result [0x20, 0x27, 0x76, 0x65] [0x27, 0x76, 0x65]
  str_replace_all result [0x20, 0x27, 0x72, 0x65] [0x27, 0x72, 0x65]

/-- `decode` of all ids but the special ones. -/
def decodeAll (special_tokens_ : List Int) (ids : List Int) : Option Text :=
  match tokenizer.model_ with
  | none => some []
  | some model => do
      let tokens := (ids.filter fun id => !special_tokens_.contains id).map
        model.idToToken
      let tokens ←
        match tokenizer.decoder_ with
        | none => some tokens
        | some decoder => decode_chain tokens decoder
      let result := tokens.flatten
      let result :=
        if tokenizer.wordpiece_prefix_.isSome then wordpieceCleanUp result else result
      some (if tokenizer.clean_up_spaces_ then cleanUp result else result)

/-- The character `▁`. -/
def metaspaceMarker : Text := [0xE2, 0x96, 0x81]

/-- The loop of `decode` for a single id over the bytes of its string. -/
def replaceMarkersFuel : Nat → Text → Text
  | 0, _ => []
  | _ + 1, [] => []
  | fuel + 1, c :: rest =>
    if metaspaceMarker.isPrefixOf (c :: rest) then
      0x20 :: replaceMarkersFuel fuel ((c :: rest).drop 3)
    else if 6 ≤ (c :: rest).length ∧ byteMarker.isPrefixOf (c :: rest) then
      match scanHex ((c :: rest).drop 3) with
      | some byte => byte :: replaceMarkersFuel fuel ((c :: rest).drop 6)
      | none => c :: replaceMarkersFuel fuel rest
    else
      c :: replaceMarkersFuel fuel rest

def replaceMarkers (token : Text) : Text := replaceMarkersFuel token.length token

/-- `decode` of a single id. -/
def decode (id : Int) : Text :=
  match tokenizer.model_ with
  | none => []
  | some model =>
    let result := replaceMarkers (model.idToToken id)
    match tokenizer.wordpiece_prefix_ with
    | some pfx =>
      if pfx ≠ [] ∧ pfx.isPrefixOf result then result.drop pfx.length
      else 0x20 :: result
    | none => if tokenizer.byte_level_ then decodeCharacters result else result

end PipelineTokenizer

end Mnn.Mtok
