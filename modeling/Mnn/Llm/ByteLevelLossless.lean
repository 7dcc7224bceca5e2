import Mnn.Llm.PipelineEncode
import Mnn.Llm.RegexPartition
import Mnn.Llm.StreamingDecode

/-!
# Byte-level tokens keep every byte

Each byte is written as its character, each character is a string of the vocabulary,
and a merge only joins the strings of two ids.  So each id spells some bytes, and the
ids of a text spell the text.
-/

namespace Mnn.Mtok

open Mnn.Foundation BitFields ByteReader PairCodes Utf8 Regex
open List

/-! ## Bytes and characters -/

theorem inverse_map_byte_map (byte : Byte) : inverse_map (byte_map byte) = some byte := by
  have inside : byte.toNat < create_bytes_char_map.length := by
    rw [length_create_bytes_char_map]
    exact byte.isLt
  rw [inverse_map_eq_some, byte_map, getD_eq_getElem?_getD,
    getElem?_eq_getElem inside, Option.getD_some]

theorem utf8_decode_byte_map (byte : Byte) (rest : Text) :
    ∃ code, utf8_decode (byte_map byte ++ rest) = ((byte_map byte).length, code) ∧
      ¬(code = 0xFFFD ∧ (byte_map byte).length = 1) := by
  rcases inverse_map_cases (inverse_map_byte_map byte) with
    ⟨same, ascii⟩ | ⟨first, second, code, same, lead, next, two⟩
  · rw [same]
    refine ⟨byte.toNat, ?_, fun impossible => ?_⟩
    · show utf8_decode (byte :: rest) = _
      rw [utf8_decode, if_pos ascii]
      rfl
    · rw [impossible.1] at ascii
      exact absurd ascii (by decide)
  · rw [same]
    exact ⟨code, (utf8_decode_two lead next rest).trans two,
      fun impossible => absurd impossible.2 (show ¬2 = 1 by decide)⟩

theorem byte_map_ne_nil (byte : Byte) : byte_map byte ≠ [] := by
  intro none
  have isByte := inverse_map_byte_map byte
  rcases inverse_map_cases isByte with ⟨same, -⟩ | ⟨_, _, _, same, -⟩
  · rw [none] at same
    nomatch same
  · rw [none] at same
    nomatch same

theorem decodeCharacters_flatMap (bytes : Text) :
    decodeCharacters (bytes.flatMap byte_map) = bytes := by
  rw [decodeCharacters_eq]
  induction bytes with
  | nil => rfl
  | cons byte bytes ih =>
    rw [flatMap_cons]
    have isByte := inverse_map_byte_map byte
    rcases inverse_map_cases isByte with
      ⟨same, ascii⟩ | ⟨first, second, code, same, lead, next, two⟩
    · have notLead : byte &&& 0xE0 ≠ 0xC0 := fun lead =>
        Nat.not_lt_of_le (not_ascii_of_lead byte lead) ascii
      rw [same, singleton_append, (single_of_not_lead notLead).decodePairs_cons, ih]
    · rw [same] at isByte ⊢
      rw [cons_append, singleton_append, decodePairs_of_pair _ isByte, ih]

/-- The code points of characters of bytes are these characters. -/
theorem codePointsFuel_flatMap {fuel : Nat} {bytes : Text}
    (enough : (bytes.flatMap byte_map).length ≤ fuel) :
    List.Forall₂ (fun c byte => c.2 = byte_map byte ∧ ¬(c.1 = 0xFFFD ∧ c.2.length = 1))
      (codePointsFuel fuel (bytes.flatMap byte_map)) bytes := by
  induction fuel generalizing bytes with
  | zero =>
    cases bytes with
    | nil => exact .nil
    | cons byte bytes =>
      have none := length_eq_zero_iff.mp (Nat.le_zero.mp enough)
      exact absurd (append_eq_nil_iff.mp none).1 (byte_map_ne_nil byte)
  | succ fuel ih =>
    cases bytes with
    | nil => exact .nil
    | cons byte bytes =>
      obtain ⟨code, read, valid⟩ := utf8_decode_byte_map byte (bytes.flatMap byte_map)
      rw [flatMap_cons] at enough ⊢
      have some := length_pos_of_ne_nil (byte_map_ne_nil byte)
      obtain ⟨c, rest, isCons⟩ : ∃ c rest, byte_map byte ++ bytes.flatMap byte_map = c :: rest :=
        exists_cons_of_ne_nil fun none =>
          byte_map_ne_nil byte (append_eq_nil_iff.mp none).1
      have unfolded :
          codePointsFuel (fuel + 1) (byte_map byte ++ bytes.flatMap byte_map) =
            (code, byte_map byte) :: codePointsFuel fuel (bytes.flatMap byte_map) := by
        rw [isCons] at read ⊢
        show ((utf8_decode (c :: rest)).2, (c :: rest).take (utf8_decode (c :: rest)).1) ::
          codePointsFuel fuel ((c :: rest).drop (utf8_decode (c :: rest)).1) = _
        rw [read, ← isCons, take_left, drop_left]
      rw [unfolded]
      rw [length_append] at enough
      exact .cons ⟨rfl, valid⟩ (ih (by omega))

/-! ## The vocabulary -/

/-- A vocabulary of bytes, with the strings that its merges make. -/
structure ByteVocabulary (id_to_token : List Text) (sorted_vocab : List VocabEntry)
    (sorted_merges : List (Nat × Int)) : Prop where
  sorted : sorted_vocab.Pairwise fun first second => first.1 ≤ second.1
  ids : ∀ entry ∈ sorted_vocab, 0 ≤ entry.2 ∧ id_to_token[entry.2.toNat]? = some entry.1
  short : ∀ entry ∈ sorted_vocab, entry.1.length < 2 ^ 16
  bytes : ∀ byte, ∃ entry ∈ sorted_vocab, entry.1 = byte_map byte
  merges : ∀ merge ∈ sorted_merges, ∀ first ∈ sorted_vocab, ∀ second ∈ sorted_vocab,
    merge.1 = merge_key first.2 second.2 → ∃ entry ∈ sorted_vocab, entry.1 = first.1 ++ second.1

variable (front behind : List Int)

section Vocabulary

variable {id_to_token : List Text} {sorted_vocab : List VocabEntry}
variable {sorted_merges : List (Nat × Int)} {use_byte_level : Bool}

/-- The first string that is not less is the string, if it is there. -/
theorem find_of_mem (sorted : sorted_vocab.Pairwise fun first second =>
      first.1 ≤ second.1) {entry : VocabEntry} (member : entry ∈ sorted_vocab) :
    ∃ found ∈ sorted_vocab, found.1 = entry.1 ∧
      sorted_vocab.find? (fun other => !decide (other.1 < entry.1)) = some found := by
  induction sorted_vocab with
  | nil => exact absurd member not_mem_nil
  | cons head entries ih =>
    obtain ⟨first, sortedEntries⟩ := pairwise_cons.mp sorted
    by_cases less : head.1 < entry.1
    · have notHead : entry ∈ entries := by
        rcases mem_cons.mp member with rfl | member
        · exact absurd less (List.lt_irrefl _)
        · exact member
      obtain ⟨found, isFound, same, finds⟩ := ih sortedEntries notHead
      refine ⟨found, mem_cons_of_mem _ isFound, same, ?_⟩
      rw [find?_cons_of_neg (by simpa using less), finds]
    · refine ⟨head, mem_cons_self, ?_, ?_⟩
      · rcases mem_cons.mp member with rfl | member
        · rfl
        · exact List.le_antisymm (first entry member) less
      · exact find?_cons_of_pos (by simpa using less)

/-- A string of the vocabulary is found under an id that has this string. -/
theorem token_to_id_of_mem (vocabulary : ByteVocabulary id_to_token sorted_vocab
      sorted_merges) {entry : VocabEntry} (member : entry ∈ sorted_vocab) :
    ∃ found ∈ sorted_vocab, found.1 = entry.1 ∧
      token_to_id sorted_vocab entry.1 = found.2 ∧ found.2 ≠ -1 := by
  obtain ⟨found, isFound, same, finds⟩ := find_of_mem vocabulary.sorted member
  refine ⟨found, isFound, same, ?_, fun impossible => ?_⟩
  · rw [token_to_id, Nat.mod_eq_of_lt (vocabulary.short entry member), vocab_find,
      take_length, finds]
    exact if_pos same
  · have nonneg := (vocabulary.ids found isFound).1
    rw [impossible] at nonneg
    exact absurd nonneg (by decide)

/-- The id is that of a string which spells these bytes. -/
def Spells (sorted_vocab : List VocabEntry) (id : Int) (bytes : Text) : Prop :=
  ∃ entry ∈ sorted_vocab, entry.2 = id ∧ entry.1 = bytes.flatMap byte_map

theorem Spells.idToToken (vocabulary : ByteVocabulary id_to_token sorted_vocab
      sorted_merges) {id : Int} {bytes : Text} (spells : Spells sorted_vocab id bytes) :
    (TokenizerModel.bpe id_to_token sorted_vocab sorted_merges
      use_byte_level).idToToken id = bytes.flatMap byte_map := by
  obtain ⟨entry, member, rfl, same⟩ := spells
  obtain ⟨nonneg, isToken⟩ := vocabulary.ids entry member
  rw [TokenizerModel.idToToken, if_pos nonneg, ← same]
  show id_to_token.getD entry.2.toNat _ = _
  rw [getD_eq_getElem?_getD, isToken, Option.getD_some]

/-! ## Merging -/

theorem bestMerge_eq_some {i best : Nat} {min_r : Int} {before : Option Nat} {ids : List Int}
    (isBest : bestMerge sorted_merges i min_r before ids = some best) :
    before = some best ∨ ∃ front first second behind,
      ids = front ++ first :: second :: behind ∧ best = i + front.length ∧
        0 ≤ find_merge sorted_merges (merge_key first second) := by
  induction ids generalizing i min_r before with
  | nil => exact Or.inl isBest
  | cons first rest ih =>
    cases rest with
    | nil => exact Or.inl isBest
    | cons second rest =>
      rw [bestMerge] at isBest
      split at isBest
      · rename_i ranked
        rcases ih isBest with same | ⟨front, _, _, behind, isIds, place, rank⟩
        · exact Or.inr ⟨[], first, second, rest, rfl, (Option.some.inj same).symm, ranked.1⟩
        · refine Or.inr ⟨first :: front, _, _, behind, ?_, ?_, rank⟩
          · rw [isIds]
            rfl
          · rw [place, length_cons]
            omega
      · rcases ih isBest with same | ⟨front, _, _, behind, isIds, place, rank⟩
        · exact Or.inl same
        · refine Or.inr ⟨first :: front, _, _, behind, ?_, ?_, rank⟩
          · rw [isIds]
            rfl
          · rw [place, length_cons]
            omega

theorem exists_of_find_merge {key : Nat} (ranked : 0 ≤ find_merge sorted_merges key) :
    ∃ merge ∈ sorted_merges, merge.1 = key := by
  unfold find_merge at ranked
  split at ranked
  · rename_i merge found
    split at ranked
    · rename_i same
      exact ⟨merge, mem_of_find?_eq_some found, same⟩
    · exact absurd ranked (by decide)
  · exact absurd ranked (by decide)

theorem mergeAt_append (first second id : Int) :
    mergeAt (front ++ first :: second :: behind) front.length id = front ++ id :: behind := by
  rw [mergeAt, set_append_right _ _ (Nat.le_refl _), Nat.sub_self, set_cons_zero,
    eraseIdx_append_of_length_le (Nat.le_add_right _ 1), Nat.add_sub_cancel_left]
  rfl

theorem getD_append_first (first second : Int) :
    (front ++ first :: second :: behind).getD front.length 0 = first := by
  rw [getD_eq_getElem?_getD, getElem?_append_right (Nat.le_refl _), Nat.sub_self]
  rfl

theorem getD_append_second (first second : Int) :
    (front ++ first :: second :: behind).getD (front.length + 1) 0 = second := by
  rw [getD_eq_getElem?_getD, getElem?_append_right (Nat.le_add_right _ 1), Nat.add_sub_cancel_left]
  rfl

/-- Ids spell a text if they spell its parts. -/
def SpellsText (sorted_vocab : List VocabEntry) (ids : List Int) (text : Text) : Prop :=
  ∃ parts, List.Forall₂ (Spells sorted_vocab) ids parts ∧ parts.flatten = text

theorem SpellsText.append {ids ids' : List Int} {text text' : Text}
    (first : SpellsText sorted_vocab ids text) (second : SpellsText sorted_vocab ids' text') :
    SpellsText sorted_vocab (ids ++ ids') (text ++ text') := by
  obtain ⟨parts, spells, rfl⟩ := first
  obtain ⟨parts', spells', rfl⟩ := second
  exact ⟨parts ++ parts', rel_append spells spells', flatten_append⟩

theorem SpellsText.flatMap {α : Type} {f : α → List Int} {g : α → Text} {values : List α}
    (spells : ∀ value ∈ values, SpellsText sorted_vocab (f value) (g value)) :
    SpellsText sorted_vocab (values.flatMap f) (values.flatMap g) := by
  induction values with
  | nil => exact ⟨[], .nil, rfl⟩
  | cons value values ih =>
    rw [flatMap_cons, flatMap_cons]
    exact (spells value mem_cons_self).append
      (ih fun other member => spells other (mem_cons_of_mem _ member))

theorem SpellsText.merge (vocabulary : ByteVocabulary id_to_token sorted_vocab
      sorted_merges) {front behind : List Int} {first second : Int} {text : Text}
    (spells : SpellsText sorted_vocab (front ++ first :: second :: behind) text)
    (ranked : 0 ≤ find_merge sorted_merges (merge_key first second)) :
    SpellsText sorted_vocab (front ++ token_to_id sorted_vocab
        ((TokenizerModel.bpe id_to_token sorted_vocab sorted_merges
            use_byte_level).idToToken first ++
          (TokenizerModel.bpe id_to_token sorted_vocab sorted_merges
            use_byte_level).idToToken second) :: behind) text := by
  obtain ⟨parts, spells, rfl⟩ := spells
  have isFront := (forall₂_take_append parts front _ spells.flip).flip
  have isOthers := (forall₂_drop_append parts front _ spells.flip).flip
  rw [← take_append_drop front.length parts]
  generalize parts.take front.length = before at *
  generalize parts.drop front.length = others at *
  cases isOthers with
  | cons isFirst isOthers =>
    cases isOthers with
    | @cons _ part' _ others isSecond isBehind =>
      rename_i part
      rw [Spells.idToToken vocabulary isFirst, Spells.idToToken vocabulary isSecond]
      obtain ⟨entry, member, rfl, string⟩ := isFirst
      obtain ⟨entry', member', rfl, string'⟩ := isSecond
      obtain ⟨merge, isMerge, isKey⟩ := exists_of_find_merge ranked
      obtain ⟨joined, isJoined, concat⟩ :=
        vocabulary.merges merge isMerge entry member entry' member' isKey
      obtain ⟨found, isFound, same, isId, -⟩ := token_to_id_of_mem vocabulary isJoined
      rw [concat, string, string'] at same isId
      rw [isId]
      refine ⟨before ++ (part ++ part') :: others,
        rel_append isFront (.cons ⟨found, isFound, rfl, ?_⟩ isBehind), ?_⟩
      · rw [same, flatMap_append]
      · simp only [flatten_append, flatten_cons, append_assoc]

theorem spellsText_mergeFuel (vocabulary : ByteVocabulary id_to_token sorted_vocab
      sorted_merges) {fuel : Nat} {out : List Int} {text : Text}
    (spells : SpellsText sorted_vocab out text) :
    SpellsText sorted_vocab (mergeFuel (.bpe id_to_token sorted_vocab sorted_merges use_byte_level)
        sorted_vocab sorted_merges fuel out) text := by
  induction fuel generalizing out with
  | zero => exact spells
  | succ fuel ih =>
    rw [mergeFuel]
    split
    · exact spells
    · rename_i best isBest
      dsimp only
      split
      · exact spells
      · rcases bestMerge_eq_some isBest with
          impossible | ⟨front, first, second, behind, rfl, rfl, ranked⟩
        · cases impossible
        · rw [Nat.zero_add, mergeAt_append, getD_append_first, getD_append_second]
          exact ih (spells.merge vocabulary ranked)

theorem spellsText_initialIds (vocabulary : ByteVocabulary id_to_token sorted_vocab
      sorted_merges) (bytes : Text) :
    SpellsText sorted_vocab (initialIds sorted_vocab false (bytes.flatMap byte_map)) bytes := by
  have read := @codePointsFuel_flatMap _ bytes (Nat.le_refl _)
  rw [initialIds, if_neg Bool.false_ne_true, codePoints]
  generalize codePointsFuel (bytes.flatMap byte_map).length (bytes.flatMap byte_map) =
    points at read
  refine ⟨bytes.map fun byte => [byte], ?_, ?_⟩
  · induction read with
    | nil => exact .nil
    | @cons c byte points bytes first _ ih =>
      obtain ⟨isCharacter, valid⟩ := first
      obtain ⟨entry, member, same⟩ := vocabulary.bytes byte
      obtain ⟨found, isFound, string, isId, known⟩ := token_to_id_of_mem vocabulary member
      rw [same] at string isId
      have ids : codePointIds sorted_vocab c = [found.2] := by
        rw [codePointIds, if_neg valid, isCharacter, isId]
        exact if_pos known
      rw [flatMap_cons, ids, map_cons, singleton_append]
      refine .cons ⟨found, isFound, rfl, ?_⟩ ih
      rw [string, flatMap_singleton]
  · clear read
    induction bytes with
    | nil => rfl
    | cons byte bytes ih =>
      rw [map_cons, flatten_cons, ih, singleton_append]

theorem spellsText_tokenize (components : Components)
    (vocabulary : ByteVocabulary id_to_token sorted_vocab sorted_merges) (bytes : Text) :
    SpellsText sorted_vocab (tokenize components (.bpe id_to_token sorted_vocab sorted_merges false)
        (bytes.flatMap byte_map)) bytes :=
  spellsText_mergeFuel vocabulary (spellsText_initialIds vocabulary bytes)

end Vocabulary

/-! ## Pre-tokenizers -/

/-- A split that keeps the text, by the engine itself. -/
inductive KeepsSplit : PreTokenizer → Prop
  | split {pattern : Text} (invert : Bool) {behavior : SplitBehavior} :
      use_wregex pattern = false → KeepsText behavior →
        KeepsSplit (.leaf (.split pattern invert behavior))

/-- A byte-level pre-tokenizer, perhaps with splits in front of it. -/
inductive ByteLevel : PreTokenizer → Prop
  | alone (use_regex : Bool) : ByteLevel (.leaf (.byteLevel use_regex))
  | behind {splits : List PreTokenizer} (use_regex : Bool) :
      (∀ split ∈ splits, KeepsSplit split) →
        ByteLevel (.sequence (splits ++ [.leaf (.byteLevel use_regex)]))

theorem flatten_flatMap_of_pieces {f : Text → List Text}
    (keeps : ∀ s, (f s).flatten = s) (splits : List Text) :
    (splits.flatMap f).flatten = splits.flatten := by
  induction splits with
  | nil => rfl
  | cons s splits ih =>
    rw [flatMap_cons, flatten_append, keeps, ih, flatten_cons]

variable (engine : Engine)

/-- The pieces are the characters of pieces that make up the text. -/
theorem pre_tokenize_byteLevel_pieces (use_regex : Bool) (splits : List Text) :
    ∃ pieces : List Text, pre_tokenize_byteLevel engine use_regex splits =
        pieces.map (fun s => s.flatMap byte_map) ∧
      pieces.flatten = splits.flatten := by
  cases use_regex with
  | false => exact ⟨splits, rfl, rfl⟩
  | true =>
    refine ⟨_, rfl, flatten_flatMap_of_pieces (fun s => ?_) splits⟩
    exact flatten_regex_scanner engine (by decide)

theorem pre_tokenizes_append (splits : List Text) (pts pts' : List PreTokenizer) :
    pre_tokenizes engine splits (pts ++ pts') =
      pre_tokenizes engine (pre_tokenizes engine splits pts) pts' := by
  induction pts generalizing splits with
  | nil => rfl
  | cons pt pts ih =>
    rw [cons_append, pre_tokenizes, pre_tokenizes, ih]

theorem flatten_pre_tokenizes {pts : List PreTokenizer}
    (keeps : ∀ pt ∈ pts, KeepsSplit pt) (splits : List Text) :
    (pre_tokenizes engine splits pts).flatten = splits.flatten := by
  induction pts generalizing splits with
  | nil => rfl
  | cons pt pts ih =>
    rw [pre_tokenizes, ih fun other member => keeps other (mem_cons_of_mem _ member)]
    cases keeps pt mem_cons_self with
    | split invert inHouse keepsText =>
      exact flatten_flatMap_of_pieces
        (fun s => flatten_regex_split engine invert inHouse keepsText) splits

theorem pre_tokenize_pieces {pt : PreTokenizer} (byteLevel : ByteLevel pt) (splits : List Text) :
    ∃ pieces : List Text, pre_tokenize engine splits pt = pieces.map (fun s => s.flatMap byte_map) ∧
      pieces.flatten = splits.flatten := by
  cases byteLevel with
  | alone use_regex =>
    rw [pre_tokenize]
    exact pre_tokenize_byteLevel_pieces engine use_regex splits
  | @behind pts use_regex keeps =>
    rw [pre_tokenize, pre_tokenizes_append]
    obtain ⟨pieces, same, makesUp⟩ := pre_tokenize_byteLevel_pieces engine use_regex
      (pre_tokenizes engine splits pts)
    refine ⟨pieces, ?_, makesUp.trans (flatten_pre_tokenizes engine keeps splits)⟩
    rw [pre_tokenizes, pre_tokenizes, pre_tokenize]
    exact same

/-! ## The whole way -/

namespace PipelineTokenizer

variable {tokenizer : PipelineTokenizer} {pt : PreTokenizer}
variable {id_to_token : List Text} {sorted_vocab : List VocabEntry}
variable {sorted_merges : List (Nat × Int)}

theorem spellsText_encodeText (components : Components)
    (noNormalizer : tokenizer.normalizer_ = none)
    (isPreTokenizer : tokenizer.pre_tokenizer_ = some pt) (byteLevel : ByteLevel pt)
    (isModel : tokenizer.model_ =
      some (.bpe id_to_token sorted_vocab sorted_merges false))
    (vocabulary : ByteVocabulary id_to_token sorted_vocab sorted_merges) (text : Text) :
    SpellsText sorted_vocab (tokenizer.encodeText components text) text := by
  rw [encodeText, noNormalizer, isPreTokenizer, isModel]
  dsimp only
  split
  · rename_i none
    rw [none]
    exact ⟨[], .nil, rfl⟩
  · obtain ⟨pieces, same, makesUp⟩ := pre_tokenize_pieces components.engine byteLevel [text]
    rw [flatten_singleton] at makesUp
    rw [same, flatMap_map, ← makesUp]
    have all := @SpellsText.flatMap sorted_vocab Text
      (fun s => if s.flatMap byte_map = [] then [] else
        tokenize components (.bpe id_to_token sorted_vocab sorted_merges false)
          (s.flatMap byte_map)) id pieces
      (fun s _ => by
        split
        · rename_i empty
          cases s with
          | nil => exact ⟨[], .nil, rfl⟩
          | cons byte s =>
            exact absurd (append_eq_nil_iff.mp empty).1 (byte_map_ne_nil byte)
        · exact spellsText_tokenize components vocabulary s)
    rw [flatMap_id] at all
    exact all

theorem flatMap_decodeCharacters (vocabulary : ByteVocabulary id_to_token sorted_vocab
      sorted_merges) {ids : List Int} {text : Text} (spells : SpellsText sorted_vocab ids text) :
    (ids.flatMap fun id => decodeCharacters
      ((TokenizerModel.bpe id_to_token sorted_vocab sorted_merges false).idToToken id)) =
        text := by
  obtain ⟨parts, spells, rfl⟩ := spells
  induction spells with
  | nil => rfl
  | cons first _ ih =>
    rw [flatMap_cons, ih, first.idToToken vocabulary, decodeCharacters_flatMap, flatten_cons]

theorem splitUnits_nil (str : Text) :
    splitUnits [] str str.length 0 = if str = [] then [] else [(str, false)] := by
  cases str with
  | nil => rfl
  | cons c rest =>
    rw [if_neg (cons_ne_nil c rest), length_cons, splitUnits,
      if_pos (by rw [length_cons]; exact Nat.succ_pos _)]
    rfl

/-- The code points of the characters of bytes, in their order. -/
def sampleCodes : List Nat := List.range' 33 94 ++ (List.range' 161 12 ++ List.range' 174 150)

def sampleTokens : List Text := sampleCodes.map u2u

/-- The characters of bytes, without any merge. -/
def sampleModel (use_byte_level : Bool) : TokenizerModel :=
  .bpe sampleTokens (sampleTokens.zipIdx.map fun entry => (entry.1, (entry.2 : Int))) []
    use_byte_level

def byteTokenizer (use_byte_level clean_up_spaces_ : Bool) : PipelineTokenizer where
  normalizer_ := none
  pre_tokenizer_ := some (.leaf (.byteLevel false))
  model_ := some (sampleModel use_byte_level)
  decoder_ := some (.leaf .byteLevel)
  added_tokens_ := []
  clean_up_spaces_

def noComponents : Components where
  engine := {
    get_category := fun _ => .Cn
    get_compiled := fun _ => []
    unicode_regex_find_all := fun _ _ => [] }
  normalize := fun _ text => text
  tokenizeOther := fun _ _ => []

theorem sorted_sampleTokens : sampleTokens.Pairwise (· ≤ ·) := by
  have transitive : ∀ {first second third : Text},
      first ≤ second → second ≤ third → first ≤ third :=
    List.le_trans
  have : Trans (fun first second : Text => first ≤ second)
      (fun second third => second ≤ third) (fun first third => first ≤ third) :=
    ⟨transitive⟩
  rw [← isChain_iff_pairwise]
  decide +kernel

theorem mem_sampleCodes : ∀ code ∈ byteCodes, code ∈ sampleCodes := by
  have ranges : ∀ code ∈ byteCodes, (33 ≤ code ∧ code < 33 + 94) ∨
      (161 ≤ code ∧ code < 161 + 12) ∨ (174 ≤ code ∧ code < 174 + 150) := by
    decide +kernel
  intro code member
  simp only [sampleCodes, mem_append, mem_range'_1]
  exact ranges code member

theorem vocabulary_sample : ByteVocabulary sampleTokens
      (sampleTokens.zipIdx.map fun entry => (entry.1, (entry.2 : Int))) [] where
  sorted := by
    rw [pairwise_map]
    have strings : (sampleTokens.zipIdx.map Prod.fst).Pairwise (· ≤ ·) := by
      rw [zipIdx_map_fst]
      exact sorted_sampleTokens
    exact pairwise_map.mp strings
  ids := by
    intro entry member
    obtain ⟨⟨token, index⟩, isEntry, rfl⟩ := mem_map.mp member
    exact ⟨Int.natCast_nonneg index, mem_zipIdx_iff_getElem?.mp isEntry⟩
  short := by
    have few : ∀ token ∈ sampleTokens, token.length < 2 ^ 16 := by
      decide +kernel
    intro entry member
    obtain ⟨⟨token, index⟩, isEntry, rfl⟩ := mem_map.mp member
    exact few token (mem_of_getElem? (mem_zipIdx_iff_getElem?.mp isEntry))
  bytes := by
    intro byte
    have inside : byte.toNat < byteCodes.length := by
      rw [byteCodes, length_byteCodesFrom]
      exact byte.isLt
    have isCode := mem_sampleCodes _ (getElem_mem inside)
    have isToken : byte_map byte ∈ sampleTokens := by
      rw [byte_map, create_bytes_char_map, getD_eq_getElem?_getD, getElem?_map,
        getElem?_eq_getElem inside]
      exact mem_map_of_mem isCode
    obtain ⟨index, atIndex⟩ := getElem?_of_mem isToken
    exact ⟨(byte_map byte, (index : Int)), mem_map.mpr ⟨(byte_map byte, index),
        mem_zipIdx_iff_getElem?.mpr atIndex, rfl⟩, rfl⟩
  merges := fun _ impossible => absurd impossible not_mem_nil

/-- Whether every tokenizer of a kind gives every text back. -/
def Lossless (use_byte_level clean_up_spaces_ : Bool) : Prop :=
  ∀ (tokenizer : PipelineTokenizer) (components : Components) (pt : PreTokenizer)
    (id_to_token : List Text) (sorted_vocab : List VocabEntry)
    (sorted_merges : List (Nat × Int)) (text : Text),
    tokenizer.normalizer_ = none → tokenizer.pre_tokenizer_ = some pt → ByteLevel pt →
        tokenizer.model_ =
            some (.bpe id_to_token sorted_vocab sorted_merges use_byte_level) →
          ByteVocabulary id_to_token sorted_vocab sorted_merges →
            tokenizer.decoder_ = some (.leaf .byteLevel) → tokenizer.added_tokens_ = [] →
                tokenizer.clean_up_spaces_ = clean_up_spaces_ →
                  tokenizer.decodeAll [] (tokenizer.encode components text) = some text

end PipelineTokenizer

end Mnn.Mtok
