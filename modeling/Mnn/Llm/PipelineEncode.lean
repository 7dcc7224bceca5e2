import Mnn.Llm.PipelineDecode
import Mnn.Llm.RegexEngine

/-!
# Encoding text

`PipelineTokenizer::encode` splits a text at the added tokens, and runs what lies
between them through the normalizer, the pre-tokenizer and the model.  Normalizers
and the models without merges are taken as they are.
-/

namespace Mnn.Mtok

open Mnn.Foundation BitFields ByteReader Utf8 Regex

/-! ## Pre-tokenizers -/

/-- The pattern `'s|'t|'re|'ve|'m|'ll|'d| ?\p{L}+| ?\p{N}+| ?[^\s\p{L}\p{N}]+|\s+(?!\S)|\s+`. -/
def gpt2_pattern_ : Text :=
  [0x27, 0x73, 0x7C, 0x27, 0x74, 0x7C, 0x27, 0x72, 0x65, 0x7C, 0x27, 0x76, 0x65,
    0x7C, 0x27, 0x6D, 0x7C, 0x27, 0x6C, 0x6C, 0x7C, 0x27, 0x64, 0x7C, 0x20, 0x3F,
    0x5C, 0x70, 0x7B, 0x4C, 0x7D, 0x2B, 0x7C, 0x20, 0x3F, 0x5C, 0x70, 0x7B, 0x4E,
    0x7D, 0x2B, 0x7C, 0x20, 0x3F, 0x5B, 0x5E, 0x5C, 0x73, 0x5C, 0x70, 0x7B, 0x4C,
    0x7D, 0x5C, 0x70, 0x7B, 0x4E, 0x7D, 0x5D, 0x2B, 0x7C, 0x5C, 0x73, 0x2B, 0x28,
    0x3F, 0x21, 0x5C, 0x53, 0x29, 0x7C, 0x5C, 0x73, 0x2B]

/-- The code points of a text, each as its bytes. -/
def codePointsFuel : Nat → Text → List (Nat × Text)
  | 0, _ => []
  | _ + 1, [] => []
  | fuel + 1, s =>
    let read := utf8_decode s
    (read.2, s.take read.1) :: codePointsFuel fuel (s.drop read.1)

def codePoints (s : Text) : List (Nat × Text) := codePointsFuel s.length s

/-- Pieces that end in front of a delimiter, which may be a piece of its own. -/
def splitOff (delimiter : Nat × Text → Option Bool) (current : Text) : List (Nat × Text) → List Text
  | [] => if current = [] then [] else [current]
  | c :: rest =>
    match delimiter c with
    | none => splitOff delimiter (current ++ c.2) rest
    | some kept =>
      (if current = [] then [] else [current]) ++
        (if kept then [c.2] else []) ++ splitOff delimiter [] rest

def pre_tokenize_byteLevel (engine : Engine) (use_regex : Bool) (splits : List Text) : List Text :=
  let splits :=
    if use_regex then
      splits.flatMap fun s => engine.regex_scanner s gpt2_pattern_
    else
      splits
  splits.map fun s => s.flatMap byte_map

def pre_tokenize_digits (individual_digits : Bool) (splits : List Text) : List Text :=
  splits.flatMap fun s =>
    splitOff (fun c =>
      if individual_digits ∧ c.2.length = 1 ∧ 0x30 ≤ c.1 ∧ c.1 ≤ 0x39 then some true
      else none) [] (codePoints s)

def pre_tokenize_metaspace (replacement : Text) (add_prefix_space : Bool)
    (splits : List Text) : List Text :=
  splits.map fun s =>
    let s := if add_prefix_space ∧ s ≠ [] ∧ s.head? ≠ some 0x20 then 0x20 :: s else s
    (codePoints s).flatMap fun c => if c.2 = [0x20] then replacement else c.2

def pre_tokenize_bert (engine : Engine) (splits : List Text) : List Text := splits.flatMap fun s =>
    splitOff (fun c =>
      if is_whitespace engine.get_category c.1 then some false
      else if is_punctuation engine.get_category c.1 ∨ (33 ≤ c.1 ∧ c.1 ≤ 47) ∨
          (58 ≤ c.1 ∧ c.1 ≤ 64) ∨ (91 ≤ c.1 ∧ c.1 ≤ 96) ∨
          (123 ≤ c.1 ∧ c.1 ≤ 126) then some true
      else none) [] (codePoints s)

def preTokenizeLeaf (engine : Engine) (splits : List Text) : PreTokenizerLeaf → List Text
  | .byteLevel use_regex => pre_tokenize_byteLevel engine use_regex splits
  | .digits individual_digits => pre_tokenize_digits individual_digits splits
  | .metaspace replacement add_prefix_space =>
    pre_tokenize_metaspace replacement add_prefix_space splits
  | .split pattern invert behavior =>
    splits.flatMap fun s => engine.regex_split s pattern invert behavior
  | .bert => pre_tokenize_bert engine splits

mutual

def pre_tokenize (engine : Engine) (splits : List Text) : PreTokenizer → List Text
  | .leaf value => preTokenizeLeaf engine splits value
  | .sequence children => pre_tokenizes engine splits children

def pre_tokenizes (engine : Engine) (splits : List Text) : List PreTokenizer → List Text
  | [] => splits
  | pt :: pts => pre_tokenizes engine (pre_tokenize engine splits pt) pts

end

/-! ## The BPE model -/

/-- The entry that `std::lower_bound` finds, if it is the string. -/
def vocab_find (sorted_vocab : List VocabEntry) (s : Text) (len : Nat) : Int :=
  let key := s.take len
  match sorted_vocab.find? fun entry => !decide (entry.1 < key) with
  | some entry => if entry.1 = key then entry.2 else -1
  | none => -1

/-- The length is a `uint16_t`. -/
def token_to_id (sorted_vocab : List VocabEntry) (token : Text) : Int :=
  vocab_find sorted_vocab token (token.length % 2 ^ 16)

def find_merge (sorted_merges : List (Nat × Int)) (key : Nat) : Int :=
  match sorted_merges.find? fun merge => !decide (merge.1 < key) with
  | some merge => if merge.1 = key then merge.2 else -1
  | none => -1

/-- The digits of `%02X`. -/
def upperHex (digit : Nat) : Byte :=
  BitVec.ofNat 8 (if digit < 10 then 0x30 + digit else 0x37 + digit)

/-- The text `<0xHH>` of a byte. -/
def byteFallbackToken (byte : Byte) : Text :=
  [0x3C, 0x30, 0x78, upperHex (byte.toNat / 16), upperHex (byte.toNat % 16), 0x3E]

/-- The ids that are there; a missing one is left out. -/
def knownIds (ids : List Int) : List Int := ids.filter fun id => id ≠ -1

/-- The ids of a code point, or of its bytes. -/
def codePointIds (sorted_vocab : List VocabEntry) (c : Nat × Text) : List Int :=
  if c.1 = 0xFFFD ∧ c.2.length = 1 then
    knownIds (c.2.map fun byte => token_to_id sorted_vocab (byteFallbackToken byte))
  else
    let id := token_to_id sorted_vocab c.2
    if id ≠ -1 then
      [id]
    else
      knownIds (c.2.map fun byte => token_to_id sorted_vocab (byteFallbackToken byte))

def initialIds (sorted_vocab : List VocabEntry) (use_byte_level : Bool) (text : Text) : List Int :=
  if use_byte_level then
    knownIds (text.map fun byte => token_to_id sorted_vocab (byte_map byte))
  else
    (codePoints text).flatMap (codePointIds sorted_vocab)

/-- The least rank below `min_r` and where it is, from some place on. -/
def bestMerge (sorted_merges : List (Nat × Int)) : Nat → Int → Option Nat → List Int → Option Nat
  | i, min_r, best, first :: second :: rest =>
    let rank := find_merge sorted_merges (merge_key first second)
    if 0 ≤ rank ∧ rank < min_r then
      bestMerge sorted_merges (i + 1) rank (some i) (second :: rest)
    else
      bestMerge sorted_merges (i + 1) min_r best (second :: rest)
  | _, _, best, _ => best

/-- Two adjacent ids become one. -/
def mergeAt (ids : List Int) (i : Nat) (id : Int) : List Int := (ids.set i id).eraseIdx (i + 1)

/-- Each merge leaves one id less. -/
def mergeFuel (model : TokenizerModel) (sorted_vocab : List VocabEntry)
    (sorted_merges : List (Nat × Int)) : Nat → List Int → List Int
  | 0, out => out
  | fuel + 1, out =>
    match bestMerge sorted_merges 0 1000000000 none out with
    | none => out
    | some best =>
      let m := model.idToToken (out.getD best 0) ++
        model.idToToken (out.getD (best + 1) 0)
      let nid := token_to_id sorted_vocab m
      if nid = -1 then out
      else mergeFuel model sorted_vocab sorted_merges fuel (mergeAt out best nid)

/-- What is taken from elsewhere: the engine, normalizers and the other models. -/
structure Components where
  engine : Engine
  normalize : Normalizer → Text → Text
  tokenizeOther : TokenizerModel → Text → List Int

def tokenize (components : Components) (model : TokenizerModel) (text : Text) : List Int :=
  match model with
  | .bpe _ sorted_vocab sorted_merges use_byte_level =>
    let out := initialIds sorted_vocab use_byte_level text
    mergeFuel model sorted_vocab sorted_merges out.length out
  | _ => components.tokenizeOther model text

/-! ## Added tokens -/

/-- The first occurrence in what is left of the text. -/
def findFirst (candidate : Text) : Nat → Text → Option Nat
  | pos, [] => if candidate = [] then some pos else none
  | pos, c :: rest =>
    if candidate.isPrefixOf (c :: rest) then some pos
    else findFirst candidate (pos + 1) rest

/-- The leftmost candidate, the longest of those, the first of those. -/
def betterMatch (candidates : List Text) (best : Option (Nat × Nat)) (pos idx : Nat) : Bool :=
  match best with
  | none => true
  | some (best_pos, best_idx) =>
    pos < best_pos ∨ (pos = best_pos ∧
        (candidates.getD best_idx []).length < (candidates.getD idx []).length)

def multi_string_find (text : Text) (start : Nat) (candidates : List Text) : Option (Nat × Nat) :=
  candidates.zipIdx.foldl (fun best candidate =>
    if candidate.1 = [] then best
    else match findFirst candidate.1 start (text.drop start) with
      | none => best
      | some pos =>
        if betterMatch candidates best pos candidate.2 then some (pos, candidate.2)
        else best) none

/-- A piece of the text, and whether it is an added token. -/
abbrev Unit_ := Text × Bool

/-- The end of a piece without the white space at its end, but not before `first`. -/
def trimEnd (str : Text) (first : Nat) : Nat → Nat
  | 0 => 0
  | last + 1 =>
    if first < last + 1 ∧ isspace (str.getD last 0) then trimEnd str first last
    else last + 1

/-- The place behind white space. -/
def skipSpaces (str : Text) (pos : Nat) : Nat := pos + ((str.drop pos).takeWhile isspace).length

/-- The text is split at the added tokens. -/
def splitUnits (added_tokens : List AddedToken) (str : Text) : Nat → Nat → List Unit_
  | 0, _ => []
  | fuel + 1, last =>
    if last < str.length then
      match multi_string_find str last (added_tokens.map AddedToken.content) with
      | none => [(str.drop last, false)]
      | some (match_pos, match_idx) =>
        match added_tokens[match_idx]? with
        | none => []
        | some token =>
          let prefix_end :=
            if token.lstrip then trimEnd str last match_pos else match_pos
          let next_start := match_pos + token.content.length
          let next_start :=
            if token.rstrip then skipSpaces str next_start else next_start
          (if last < prefix_end then
              [(Cutting.slice str last prefix_end, false)] else []) ++
            (token.content, true) :: splitUnits added_tokens str fuel next_start
    else
      []

namespace PipelineTokenizer

variable (tokenizer : PipelineTokenizer) (components : Components)

/-- The ids of a text without added tokens. -/
def encodeText (text : Text) : List Int :=
  let normalized :=
    match tokenizer.normalizer_ with
    | none => text
    | some normalizer => components.normalize normalizer text
  if normalized = [] then
    []
  else
    let splits :=
      match tokenizer.pre_tokenizer_ with
      | none => [normalized]
      | some pt => pre_tokenize components.engine [normalized] pt
    splits.flatMap fun s =>
      match tokenizer.model_ with
      | none => []
      | some model => if s = [] then [] else tokenize components model s

/-- The id of an added token is that of the first one with its content. -/
def encodeUnit (unit_ : Unit_) : List Int :=
  if unit_.2 then
    match tokenizer.added_tokens_.find? fun token => token.content = unit_.1 with
    | some token => [token.id]
    | none => []
  else
    tokenizer.encodeText components unit_.1

/-- `encode` of the pipeline. -/
def encode (str : Text) : List Int := (splitUnits tokenizer.added_tokens_ str str.length 0).flatMap
    (tokenizer.encodeUnit components)

end PipelineTokenizer

end Mnn.Mtok
