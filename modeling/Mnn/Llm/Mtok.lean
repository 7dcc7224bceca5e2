import Mnn.Foundation.TreeReader

/-!
# The binary tokenizer format

`PipelineTokenizer::load_vocab_binary` reads the components of a tokenizer one
behind the other: a normalizer, a pre-tokenizer, the model with its vocabulary, a
decoder and the added tokens.  The sections behind them are there only if bytes
are left.

The bytes begin behind the lines of the header.  Memory is taken to suffice for
each count.
-/

namespace Mnn.Mtok

open Mnn.Foundation BitFields ByteReader

/-- A string, as its bytes. -/
abbrev Text := List Byte

/-! ## Components -/

abbrev NormTable := List (Nat × Text)

inductive NormalizerLeaf
  | nfkc (table : NormTable) (clean_controls : Bool)
  | prepend (prepend : Text)
  | replace (pattern content : Text)
  | bert (clean chinese accents lower : Bool) (nfd : NormTable)
  | strip (strip_left strip_right : Bool)
  deriving DecidableEq

abbrev Normalizer := Composite NormalizerLeaf

/-- What is done with the separators; the engine has the first three. -/
inductive SplitBehavior
  | isolated
  | removed
  | mergedWithPrevious
  | mergedWithNext
  | contiguous
  deriving DecidableEq

inductive PreTokenizerLeaf
  | byteLevel (use_regex : Bool)
  | digits (individual_digits : Bool)
  | metaspace (replacement : Text) (add_prefix_space : Bool)
  | split (pattern : Text) (invert : Bool) (behavior : SplitBehavior)
  | bert
  deriving DecidableEq

abbrev PreTokenizer := Composite PreTokenizerLeaf

inductive DecoderLeaf
  | byteLevel
  | byteFallback
  | metaspace (replacement : Text) (add_prefix_space : Bool)
  | wordPiece (pfx : Text) (cleanup : Bool)
  | fuse
  | replace (pattern content : Text)
  | strip (content : Text) (start stop : Int)
  deriving DecidableEq

abbrev TokenDecoder := Composite DecoderLeaf

/-- A token and its id. -/
abbrev VocabEntry := Text × Int

/-- The scores of the unigram model are kept as their eight bytes. -/
inductive TokenizerModel
  | bpe (id_to_token : List Text) (sorted_vocab : List VocabEntry)
      (sorted_merges : List (Nat × Int)) (use_byte_level : Bool)
  | wordPiece (unk_token pfx : Text) (max_chars : Int)
      (id_to_token : List Text) (sorted_vocab : List VocabEntry)
  | unigram (unk_id : Int) (byte_fallback : Bool) (id_to_token : List Text)
      (scores : List Nat) (sorted_vocab : List VocabEntry)
  deriving DecidableEq

structure AddedToken where
  id : Int
  content : Text
  special : Bool
  lstrip : Bool
  rstrip : Bool
  deriving DecidableEq

inductive PostProcessorOp
  | sequenceA
  | specialToken (token_id : Int)
  deriving DecidableEq

/-- What is loaded. -/
structure PipelineTokenizer where
  normalizer_ : Option Normalizer
  pre_tokenizer_ : Option PreTokenizer
  model_ : Option TokenizerModel
  decoder_ : Option TokenDecoder
  added_tokens_ : List AddedToken
  chat_template_ : Text := []
  chat_template_eos_ : Text := []
  clean_up_spaces_ : Bool := false
  chat_template_bos_ : Text := []
  post_single_ops_ : List PostProcessorOp := []

/-! ## Reading -/

/-- An `int` that was written as a `uint32_t`. -/
def int (number : Nat) : Int := (BitVec.ofNat 32 number).toInt

def bool (byte : Byte) : Bool := byte ≠ 0

def read_u8 : Reader Byte := byte
def read_u16 : Reader Nat := number 2
def read_u32 : Reader Nat := number 4
def read_f64 : Reader Nat := number 8

def read_bool : Reader Bool := do
  let value ← read_u8
  pure (bool value)

def read_int : Reader Int := do
  let value ← read_u32
  pure (int value)

def read_str : Reader Text := do
  let len ← read_u16
  block len

def read_norm_entry : Reader (Nat × Text) := do
  let cp ← read_u32
  let utf8 ← read_str
  pure (cp, utf8)

def read_norm_table : Reader NormTable := do
  let count ← read_u32
  many read_norm_entry count

/-- The types of `read_normalizer_bin` but the sequence. -/
def readNormalizerLeaf (type : Byte) : Reader (Option NormalizerLeaf) :=
  match type.toNat with
  | 1 => pure (some (.nfkc [] true))
  | 2 => do
      let s ← read_str
      pure (some (.prepend s))
  | 3 => do
      let pat ← read_str
      let content ← read_str
      pure (some (.replace pat content))
  | 5 => do
      let clean ← read_bool
      let chinese ← read_bool
      let strip_accents ← read_bool
      let lowercase ← read_bool
      pure (some (.bert clean chinese strip_accents lowercase []))
  | 6 => do
      let table ← read_norm_table
      pure (some (.nfkc table true))
  | 7 => do
      let clean ← read_bool
      let chinese ← read_bool
      let strip ← read_bool
      let lower ← read_bool
      let nfd ← if strip then read_norm_table else pure []
      pure (some (.bert clean chinese strip lower nfd))
  | 8 => do
      let strip_left ← read_bool
      let strip_right ← read_bool
      pure (some (.strip strip_left strip_right))
  | 9 => do
      let table ← read_norm_table
      pure (some (.nfkc table false))
  | _ => pure none

def read_normalizer_bin : Reader (Option Normalizer) := readTree 4 readNormalizerLeaf

/-- The types of `read_pre_tokenizer_bin` but the sequence. -/
def readPreTokenizerLeaf (type : Byte) : Reader (Option PreTokenizerLeaf) :=
  match type.toNat with
  | 1 => do
      let use_regex ← read_bool
      pure (some (.byteLevel use_regex))
  | 2 => do
      let individual ← read_bool
      pure (some (.digits individual))
  | 3 => do
      let rep ← read_str
      let aps ← read_bool
      pure (some (.metaspace rep aps))
  | 4 => do
      let pat ← read_str
      let invert ← read_bool
      let behavior ← read_u8
      pure (some (.split pat invert (if behavior = 0 then .isolated
          else if behavior = 2 then .mergedWithPrevious
          else .removed)))
  | 5 => pure (some .bert)
  | _ => pure none

def read_pre_tokenizer_bin : Reader (Option PreTokenizer) := readTree 6 readPreTokenizerLeaf

/-- The types of `read_decoder_bin` but the sequence. -/
def readDecoderLeaf (type : Byte) : Reader (Option DecoderLeaf) :=
  match type.toNat with
  | 0 => pure (some .byteLevel)
  | 1 => pure (some .byteFallback)
  | 2 => do
      let rep ← read_str
      let aps ← read_bool
      pure (some (.metaspace rep aps))
  | 3 => do
      let pfx ← read_str
      let cleanup ← read_bool
      pure (some (.wordPiece pfx cleanup))
  | 4 => pure (some .fuse)
  | 5 => do
      let pat ← read_str
      let content ← read_str
      pure (some (.replace pat content))
  | 6 => do
      let content ← read_str
      let start ← read_int
      let stop ← read_int
      pure (some (.strip content start stop))
  | _ => pure none

def read_decoder_bin : Reader (Option TokenDecoder) := readTree 7 readDecoderLeaf

/-! ## The model -/

/-- An id has to be an index of the vocabulary. -/
def check_id (vocab_size : Nat) (id : Int) : Reader Unit :=
  if id < 0 ∨ vocab_size ≤ id.toNat then reject else pure ()

/-- A string of the sorted vocabulary and its id. -/
def readEntry (vocab_size : Nat) : Reader VocabEntry := do
  let sr ← read_str
  let id ← read_int
  check_id vocab_size id
  pure (sr, id)

/-- An entry with its score. -/
def readScoredEntry (vocab_size : Nat) : Reader (VocabEntry × Nat) := do
  let sr ← read_str
  let id ← read_int
  let score ← read_f64
  check_id vocab_size id
  pure ((sr, id), score)

def merge_key (a b : Int) : Nat := ((BitVec.ofInt 32 a).toNat <<< 32) ||| (BitVec.ofInt 32 b).toNat

def readMerge : Reader (Nat × Int) := do
  let id1 ← read_int
  let id2 ← read_int
  let rank ← read_int
  pure (merge_key id1 id2, rank)

/-- The value of each entry is stored under its id. -/
def fillIds {α : Type} (empty : α) (vocab_size : Nat) (entries : List (Int × α)) : List α :=
  entries.foldl (fun table entry => table.set entry.1.toNat entry.2)
    (List.replicate vocab_size empty)

def idToToken (vocab_size : Nat) (entries : List VocabEntry) : List Text :=
  fillIds [] vocab_size (entries.map Prod.swap)

/-- The model behind its type and size; of another type there is none. -/
def readModelBody (type : Byte) (vocab_size : Nat) : Reader (Option TokenizerModel) :=
  match type.toNat with
  | 0 => do
      let _byte_fallback ← read_u8
      let byte_level ← read_bool
      let merge_size ← read_u32
      let entries ← many (readEntry vocab_size) vocab_size
      let merges ← many readMerge merge_size
      pure (some (.bpe (idToToken vocab_size entries) entries merges byte_level))
  | 1 => do
      let unk_token ← read_str
      let pfx ← read_str
      let max_chars ← read_int
      let entries ← many (readEntry vocab_size) vocab_size
      pure (some (.wordPiece unk_token pfx max_chars (idToToken vocab_size entries) entries))
  | 2 => do
      let unk_id ← read_int
      let byte_fallback ← read_bool
      let entries ← many (readScoredEntry vocab_size) vocab_size
      pure (some (.unigram unk_id byte_fallback (idToToken vocab_size (entries.map Prod.fst))
        (fillIds 0 vocab_size (entries.map fun entry => (entry.1.2, entry.2)))
        (entries.map Prod.fst)))
  | _ => pure none

def readModel : Reader (Option TokenizerModel) := do
  let type ← read_u8
  let vocab_size ← read_u32
  readModelBody type vocab_size

def readAddedToken : Reader AddedToken := do
  let id ← read_int
  let special ← read_bool
  let lstrip ← read_bool
  let rstrip ← read_bool
  let content ← read_str
  pure { id, content, special, lstrip, rstrip }

def readAddedTokens : Reader (List AddedToken) := do
  let count ← read_u32
  many readAddedToken count

/-! ## The optional sections -/

/-- How many bytes are left. -/
def remaining : Reader Nat := fun input => .ok (input.length, input)

/-- A section that is read only if bytes are left. -/
def optionalSection {α : Type} (absent : α) (reader : Reader α) : Reader α := do
  let left ← remaining
  if left = 0 then pure absent else reader

/-- The operations; an unknown one ends them. -/
def readOps : Nat → Reader (List PostProcessorOp)
  | 0 => pure []
  | count + 1 => do
      let left ← remaining
      if left = 0 then
        pure []
      else do
        let op_type ← read_u8
        if op_type = 0 then do
          let ops ← readOps count
          pure (.sequenceA :: ops)
        else if op_type = 1 ∧ 4 ≤ left - 1 then do
          let token_id ← read_int
          let ops ← readOps count
          pure (.specialToken token_id :: ops)
        else
          pure []

/-- The program; as many bytes as for ids only are taken for the old format. -/
def readPostProcessor : Reader (List PostProcessorOp) := do
  let post_single_count ← read_u16
  let left ← remaining
  if left = post_single_count * 4 then do
    let ids ← many read_int post_single_count
    pure (.sequenceA :: ids.map .specialToken)
  else
    readOps post_single_count

/-- The chat template and the token at its end. -/
def readTemplate : Reader (Text × Text) := optionalSection ([], []) do
    let tpl_len ← read_u32
    let chat_template ← block tpl_len
    let chat_template_eos ← optionalSection [] read_str
    pure (chat_template, chat_template_eos)

def readFlags : Reader Bool := optionalSection false do
    let flags ← read_u8
    pure (flags &&& 1 ≠ 0)

/-- The sections behind the components. -/
def readSections (tokenizer : PipelineTokenizer) : Reader PipelineTokenizer := do
  let (chat_template_, chat_template_eos_) ← readTemplate
  let clean_up_spaces_ ← readFlags
  let chat_template_bos_ ← optionalSection [] read_str
  let post_single_ops_ ← optionalSection [] readPostProcessor
  pure { tokenizer with
    chat_template_, chat_template_eos_, clean_up_spaces_,
    chat_template_bos_, post_single_ops_ }

/-- `load_vocab_binary`; it returns false where the reader rejects. -/
def load_vocab_binary : Reader PipelineTokenizer := do
  let normalizer_ ← read_normalizer_bin
  let pre_tokenizer_ ← read_pre_tokenizer_bin
  let model_ ← readModel
  let decoder_ ← read_decoder_bin
  let added_tokens_ ← readAddedTokens
  readSections {
    normalizer_, pre_tokenizer_, model_, decoder_, added_tokens_ }

end Mnn.Mtok
