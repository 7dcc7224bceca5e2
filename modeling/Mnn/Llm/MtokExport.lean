import Mnn.Foundation.TreeWriter
import Mnn.Llm.Mtok

/-!
# Writing the binary tokenizer format

`export_mtok` writes a tokenizer that is described in JSON.  The fields of the
description are taken as they were read from it, and a number or a string that
does not fit raises an error, so that nothing is written.
-/

namespace Mnn.Mtok

open Mnn.Foundation BitFields ByteReader

/-! ## Descriptions -/

/-- The tables that are made from Python's `unicodedata`. -/
structure UnicodeTables where
  nfkc : NormTable
  nfc : NormTable
  nfd : NormTable

/-- A normalizer that is not a sequence; `other` has no byte of its own. -/
inductive NormalizerJson
  | nfkc
  | nfc
  | prepend (prepend : Text)
  | replace (pattern content : Text)
  | bertNormalizer (clean_text handle_chinese_chars strip_accents lowercase : Bool)
  | lowercase
  | stripAccents
  | strip (strip_left strip_right : Bool)
  | other

inductive PreTokenizerJson
  | byteLevel (use_regex : Bool)
  | digits (individual_digits : Bool)
  | metaspace (replacement : Text) (add_prefix_space : Bool)
  | split (pattern : Text) (invert : Bool) (behavior : SplitBehavior)
  | bertPreTokenizer
  | whitespaceSplit
  | other

inductive DecoderJson
  | byteLevel
  | byteFallback
  | metaspace (replacement : Text) (add_prefix_space : Bool)
  | wordPiece (pfx : Text) (cleanup : Bool)
  | fuse
  | replace (pattern content : Text)
  | strip (content : Text) (start stop : Nat)
  | other

/-- The vocabulary is given in the order of the ids, which begin at zero. -/
inductive ModelJson
  | bpe (byte_fallback : Bool) (vocab : List Text) (merges : List (Text × Text))
  | wordPiece (unk_token pfx : Text) (max_chars : Nat) (vocab : List Text)
  | unigram (unk_id : Nat) (byte_fallback : Bool) (vocab : List (Text × Nat))

structure AddedTokenJson where
  id : Nat
  content : Text
  special : Bool
  lstrip : Bool
  rstrip : Bool

inductive OpJson
  | sequenceA
  | specialToken (token_id : Nat)

structure Description where
  normalizer : Composite NormalizerJson
  pre_tokenizer : Composite PreTokenizerJson
  model : ModelJson
  decoder : Composite DecoderJson
  added_tokens : List AddedTokenJson
  chat_template : Text
  eos_token : Text
  clean_up_tokenization_spaces : Bool
  bos_token : Text
  post_single_ops : List OpJson

/-! ## Writing -/

def pack_bool (value : Bool) : List Byte := [if value then 1 else 0]

def pack_str (s : Text) : Option (List Byte) := do
  let len ← pack 2 s.length
  some (len ++ s)

/-- What is written for some values, one behind the other. -/
def packAll {α : Type} (write : α → Option (List Byte)) (values : List α) : Option (List Byte) :=
  match values with
  | [] => some []
  | value :: values => do
      let first ← write value
      let others ← packAll write values
      some (first ++ others)

def write_norm_entry (entry : Nat × Text) : Option (List Byte) := do
  let cp ← pack 4 entry.1
  let utf8 ← pack_str entry.2
  some (cp ++ utf8)

def write_norm_table (entries : NormTable) : Option (List Byte) := do
  let count ← pack 4 entries.length
  let entries ← packAll write_norm_entry entries
  some (count ++ entries)

def writeNormalizerLeaf (tables : UnicodeTables) : NormalizerJson → Option (List Byte)
  | .nfkc => do
      let table ← write_norm_table tables.nfkc
      some (6 :: table)
  | .nfc => do
      let table ← write_norm_table tables.nfc
      some (9 :: table)
  | .prepend prepend => do
      let prepend ← pack_str prepend
      some (2 :: prepend)
  | .replace pattern content => do
      let pattern ← pack_str pattern
      let content ← pack_str content
      some (3 :: (pattern ++ content))
  | .bertNormalizer clean_text handle_chinese_chars strip_accents lowercase => do
      let nfd ← if strip_accents then write_norm_table tables.nfd else some []
      some ((if strip_accents then 7 else 5) ::
        (pack_bool clean_text ++ (pack_bool handle_chinese_chars ++
          (pack_bool strip_accents ++ (pack_bool lowercase ++ nfd)))))
  | .lowercase => some [5, 0, 0, 0, 1]
  | .stripAccents => do
      let nfd ← write_norm_table tables.nfd
      some (7 :: 0 :: 0 :: 1 :: 0 :: nfd)
  | .strip strip_left strip_right =>
    some (8 :: (pack_bool strip_left ++ pack_bool strip_right))
  | .other => some [0]

def write_normalizer_bin (tables : UnicodeTables) : Composite NormalizerJson → Option (List Byte) :=
  writeTree 4 (writeNormalizerLeaf tables)

def behavior_id : SplitBehavior → Byte
  | .isolated => 0
  | .mergedWithPrevious => 2
  | _ => 1

def writePreTokenizerLeaf : PreTokenizerJson → Option (List Byte)
  | .byteLevel use_regex => some (1 :: pack_bool use_regex)
  | .digits individual_digits => some (2 :: pack_bool individual_digits)
  | .metaspace replacement add_prefix_space => do
      let rep ← pack_str replacement
      some (3 :: (rep ++ pack_bool add_prefix_space))
  | .split pattern invert behavior => do
      let pattern ← pack_str pattern
      some (4 :: (pattern ++ (pack_bool invert ++ [behavior_id behavior])))
  | .bertPreTokenizer => some [5]
  | .whitespaceSplit => do
      let pattern ← pack_str [0x5C, 0x73, 0x2B]
      some (4 :: (pattern ++ [0, 1]))
  | .other => some [0]

def write_pre_tokenizer_bin : Composite PreTokenizerJson → Option (List Byte) :=
  writeTree 6 writePreTokenizerLeaf

/-- Without a byte of its own the byte of `ByteLevel` is written. -/
def writeDecoderLeaf : DecoderJson → Option (List Byte)
  | .byteLevel => some [0]
  | .byteFallback => some [1]
  | .metaspace replacement add_prefix_space => do
      let rep ← pack_str replacement
      some (2 :: (rep ++ pack_bool add_prefix_space))
  | .wordPiece pfx cleanup => do
      let pfx ← pack_str pfx
      some (3 :: (pfx ++ pack_bool cleanup))
  | .fuse => some [4]
  | .replace pattern content => do
      let pattern ← pack_str pattern
      let content ← pack_str content
      some (5 :: (pattern ++ content))
  | .strip content start stop => do
      let content ← pack_str content
      let start ← pack 4 start
      let stop ← pack 4 stop
      some (6 :: (content ++ (start ++ stop)))
  | .other => some [0]

def write_decoder_bin : Composite DecoderJson → Option (List Byte) := writeTree 7 writeDecoderLeaf

/-! ## The model -/

def isByteLevelPreTokenizer : Composite PreTokenizerJson → Bool
  | .leaf (.byteLevel _) => true
  | _ => false

def isByteLevelDecoder : Composite DecoderJson → Bool
  | .leaf .byteLevel => true
  | _ => false

/-- Whether the model has to map bytes because no pre-tokenizer does. -/
def byte_level (pt : Composite PreTokenizerJson) (dec : Composite DecoderJson) : Bool :=
  match pt with
  | .leaf _ => false
  | .sequence pretokenizers =>
    !pretokenizers.any isByteLevelPreTokenizer &&
      match dec with
      | .leaf _ => isByteLevelDecoder dec
      | .sequence decoders => decoders.any isByteLevelDecoder

/-- Strings with their ids, sorted by string. -/
def sortedVocab (vocab : List Text) : List (Text × Nat) :=
  vocab.zipIdx.mergeSort fun a b => decide (a.1 ≤ b.1)

def writeEntry (entry : Text × Nat) : Option (List Byte) := do
  let token ← pack_str entry.1
  let tid ← pack 4 entry.2
  some (token ++ tid)

/-- The ids of the parts of each merge with its rank; none is missing. -/
def mergeIds (vocab : List Text) (merges : List (Text × Text)) : Option (List (Nat × Nat × Nat)) :=
  merges.zipIdx.mapM fun merge => do
    let id1 ← vocab.idxOf? merge.1.1
    let id2 ← vocab.idxOf? merge.1.2
    some (id1, id2, merge.2)

/-- The merges, sorted by key. -/
def sortedMerges (pairs : List (Nat × Nat × Nat)) : List (Nat × Nat × Nat) :=
  pairs.mergeSort fun a b =>
    decide ((a.1 <<< 32) ||| (a.2.1 &&& 0xFFFFFFFF) ≤ (b.1 <<< 32) ||| (b.2.1 &&& 0xFFFFFFFF))

def writeMerge (merge : Nat × Nat × Nat) : Option (List Byte) := do
  let id1 ← pack 4 merge.1
  let id2 ← pack 4 merge.2.1
  let rank ← pack 4 merge.2.2
  some (id1 ++ (id2 ++ rank))

/-- Strings with their ids and scores, sorted by string. -/
def sortedScores (vocab : List (Text × Nat)) : List ((Text × Nat) × Nat) :=
  vocab.zipIdx.mergeSort fun a b => decide (a.1.1 ≤ b.1.1)

def writeScoredEntry (entry : (Text × Nat) × Nat) : Option (List Byte) := do
  let first ← writeEntry (entry.1.1, entry.2)
  let score ← pack 8 entry.1.2
  some (first ++ score)

def writeModel (byte_level : Bool) : ModelJson → Option (List Byte)
  | .bpe byte_fallback vocab merges => do
      let vocab_size ← pack 4 vocab.length
      let merge_size ← pack 4 merges.length
      let entries ← packAll writeEntry (sortedVocab vocab)
      let pairs ← mergeIds vocab merges
      let merges ← packAll writeMerge (sortedMerges pairs)
      some (0 :: (vocab_size ++ (pack_bool byte_fallback ++ (pack_bool byte_level ++
        (merge_size ++ (entries ++ merges))))))
  | .wordPiece unk_token pfx max_chars vocab => do
      let vocab_size ← pack 4 vocab.length
      let unk_token ← pack_str unk_token
      let pfx ← pack_str pfx
      let max_chars ← pack 4 max_chars
      let entries ← packAll writeEntry (sortedVocab vocab)
      some (1 :: (vocab_size ++ (unk_token ++ (pfx ++ (max_chars ++ entries)))))
  | .unigram unk_id byte_fallback vocab => do
      let vocab_size ← pack 4 vocab.length
      let unk_id ← pack 4 unk_id
      let entries ← packAll writeScoredEntry (sortedScores vocab)
      some (2 :: (vocab_size ++ (unk_id ++ (pack_bool byte_fallback ++ entries))))

/-! ## The whole file -/

def writeAddedToken (token : AddedTokenJson) : Option (List Byte) := do
  let id ← pack 4 token.id
  let content ← pack_str token.content
  some (id ++ (pack_bool token.special ++ (pack_bool token.lstrip ++
    (pack_bool token.rstrip ++ content))))

def writeAddedTokens (tokens : List AddedTokenJson) : Option (List Byte) := do
  let count ← pack 4 tokens.length
  let tokens ← packAll writeAddedToken tokens
  some (count ++ tokens)

def writeOp : OpJson → Option (List Byte)
  | .sequenceA => some [0]
  | .specialToken token_id => do
      let token_id ← pack 4 token_id
      some (1 :: token_id)

/-- The bytes of `export_mtok` behind the lines of the header. -/
def export_mtok (tables : UnicodeTables) (description : Description) : Option (List Byte) := do
  let normalizer ← write_normalizer_bin tables description.normalizer
  let pre_tokenizer ← write_pre_tokenizer_bin description.pre_tokenizer
  let model ←
    writeModel (byte_level description.pre_tokenizer description.decoder) description.model
  let decoder ← write_decoder_bin description.decoder
  let added_tokens ← writeAddedTokens description.added_tokens
  let tpl_len ← pack 4 description.chat_template.length
  let eos ← pack_str description.eos_token
  let bos ← pack_str description.bos_token
  let count ← pack 2 description.post_single_ops.length
  let ops ← packAll writeOp description.post_single_ops
  some (normalizer ++ (pre_tokenizer ++ (model ++ (decoder ++ (added_tokens ++
    (tpl_len ++ (description.chat_template ++ (eos ++
      (pack_bool description.clean_up_tokenization_spaces ++ (bos ++ (count ++ ops)))))))))))

end Mnn.Mtok
