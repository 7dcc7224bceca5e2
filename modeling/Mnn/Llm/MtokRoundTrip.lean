import Mnn.Llm.MtokExport
import Mnn.Llm.MtokTotal

/-!
# When a tokenizer survives the file

What is written is read again as it was meant, but for a decoder without a byte of
its own, the ways to split that share a byte, numbers that are no `int`s, and
programs that look like the old format.
-/

variable {bytes rest : List Byte} {pairs : List (Nat × Nat × Nat)} {α β : Type}
  {merges : List (Text × Text)} {entries : List (Int × α)} {description : Description}

namespace Mnn.Mtok

open Mnn.Foundation BitFields ByteReader
open List

/-! ## What a description stands for -/

def NormalizerJson.normalizer (tables : UnicodeTables) : NormalizerJson → Option NormalizerLeaf
  | .nfkc => some (.nfkc tables.nfkc true)
  | .nfc => some (.nfkc tables.nfc false)
  | .prepend s => some (.prepend s)
  | .replace pattern content => some (.replace pattern content)
  | .bertNormalizer clean_text handle_chinese_chars strip_accents lower =>
    some (.bert clean_text handle_chinese_chars strip_accents lower
      (if strip_accents then tables.nfd else []))
  | .lowercase => some (.bert false false false true [])
  | .stripAccents => some (.bert false false true false tables.nfd)
  | .strip strip_left strip_right => some (.strip strip_left strip_right)
  | .other => none

/-- The pre-tokenizer, with what becomes of the way to split. -/
def PreTokenizerJson.preTokenizer (read : SplitBehavior → SplitBehavior) :
    PreTokenizerJson → Option PreTokenizerLeaf
  | .byteLevel use_regex => some (.byteLevel use_regex)
  | .digits individual_digits => some (.digits individual_digits)
  | .metaspace replacement add_prefix_space =>
    some (.metaspace replacement add_prefix_space)
  | .split pattern invert behavior => some (.split pattern invert (read behavior))
  | .bertPreTokenizer => some .bert
  | .whitespaceSplit => some (.split [0x5C, 0x73, 0x2B] false .removed)
  | .other => none

/-- The decoder, with what becomes of numbers and of others. -/
def DecoderJson.decoder (read : Nat → Int) (other : Option DecoderLeaf) :
    DecoderJson → Option DecoderLeaf
  | .byteLevel => some .byteLevel
  | .byteFallback => some .byteFallback
  | .metaspace replacement add_prefix_space =>
    some (.metaspace replacement add_prefix_space)
  | .wordPiece pfx cleanup => some (.wordPiece pfx cleanup)
  | .fuse => some .fuse
  | .replace pattern content => some (.replace pattern content)
  | .strip content start stop => some (.strip content (read start) (read stop))
  | .other => other

/-- The strings in the order of their ids. -/
def ModelJson.vocab : ModelJson → List Text
  | .bpe _ vocab _ => vocab
  | .wordPiece _ _ _ vocab => vocab
  | .unigram _ _ vocab => vocab.map Prod.fst

/-- The model, with what becomes of numbers; the ids of the vocabulary are exact. -/
def ModelJson.tokenizerModel (read : Nat → Int) (byte_level : Bool) : ModelJson → TokenizerModel
  | .bpe _ vocab merges =>
    .bpe vocab ((sortedVocab vocab).map fun entry => (entry.1, (entry.2 : Int)))
      ((sortedMerges ((mergeIds vocab merges).getD [])).map fun merge =>
        (merge_key merge.1 merge.2.1, read merge.2.2))
      byte_level
  | .wordPiece unk_token pfx max_chars vocab =>
    .wordPiece unk_token pfx (read max_chars) vocab
      ((sortedVocab vocab).map fun entry => (entry.1, (entry.2 : Int)))
  | .unigram unk_id byte_fallback vocab =>
    .unigram (read unk_id) byte_fallback (vocab.map Prod.fst) (vocab.map Prod.snd)
      ((sortedScores vocab).map fun entry => (entry.1.1, (entry.2 : Int)))

def AddedTokenJson.addedToken (read : Nat → Int) (token : AddedTokenJson) : AddedToken where
  id := read token.id
  content := token.content
  special := token.special
  lstrip := token.lstrip
  rstrip := token.rstrip

def OpJson.op (read : Nat → Int) : OpJson → PostProcessorOp
  | .sequenceA => .sequenceA
  | .specialToken token_id => .specialToken (read token_id)

/-- The tokenizer that is described. -/
def Description.tokenizer (tables : UnicodeTables) (description : Description) :
    PipelineTokenizer where
  normalizer_ := description.normalizer.filterMap (NormalizerJson.normalizer tables)
  pre_tokenizer_ := description.pre_tokenizer.filterMap (PreTokenizerJson.preTokenizer id)
  model_ :=
    some (description.model.tokenizerModel Int.ofNat
      (byte_level description.pre_tokenizer description.decoder))
  decoder_ := description.decoder.filterMap (DecoderJson.decoder Int.ofNat none)
  added_tokens_ := description.added_tokens.map (AddedTokenJson.addedToken Int.ofNat)
  chat_template_ := description.chat_template
  chat_template_eos_ := description.eos_token
  clean_up_spaces_ := description.clean_up_tokenization_spaces
  chat_template_bos_ := description.bos_token
  post_single_ops_ := description.post_single_ops.map (OpJson.op Int.ofNat)

/-! ## What is written -/

theorem pack_str_eq_some {s : Text} :
    pack_str s = some bytes ↔ StrBytes bytes s := by
  unfold pack_str StrBytes
  simp only [Option.bind_eq_bind, Option.bind_eq_some_iff, pack_eq_some, Option.some.injEq]
  constructor
  · rintro ⟨_, ⟨fits, rfl⟩, rfl⟩
    exact ⟨fits, rfl⟩
  · rintro ⟨fits, rfl⟩
    exact ⟨_, ⟨fits, rfl⟩, rfl⟩

theorem intBytes_of_pack {number : Nat}
    (packs : pack 4 number = some bytes) : IntBytes bytes (int number) := by
  obtain ⟨fits, rfl⟩ := pack_eq_some.mp packs
  exact ⟨number, fits, rfl, rfl⟩

theorem boolBytes_pack (value : Bool) : BoolBytes (pack_bool value) value := by
  cases value with
  | false => exact ⟨0, rfl, rfl⟩
  | true => exact ⟨1, rfl, rfl⟩

theorem packAll_derives {write : α → Option (List Byte)}
    {grammar : Grammar β} {f : α → β} {values : List α}
    (derives : ∀ value ∈ values, ∀ bytes, write value = some bytes → grammar bytes (f value))
    (writes : packAll write values = some bytes) :
    Many grammar bytes (values.map f) := by
  induction values generalizing bytes with
  | nil =>
    obtain rfl := Option.some.inj writes
    exact .nil
  | cons value values ih =>
    simp only [packAll, Option.bind_eq_bind, Option.bind_eq_some_iff, Option.some.injEq] at writes
    obtain ⟨first, writesFirst, others, writesOthers, rfl⟩ := writes
    exact .cons (derives value mem_cons_self first writesFirst) (ih (fun value member =>
        derives value (mem_cons_of_mem _ member)) writesOthers)

theorem normTable_derives {table : NormTable}
    (writes : write_norm_table table = some bytes) : NormTableBytes bytes table := by
  simp only [write_norm_table, Option.bind_eq_bind, Option.bind_eq_some_iff,
    pack_eq_some, Option.some.injEq] at writes
  obtain ⟨_, ⟨few, rfl⟩, entries, writes, rfl⟩ := writes
  have derived : Many NormEntryBytes entries (table.map id) := by
    refine packAll_derives (fun entry _ bytes writes => ?_) writes
    simp only [write_norm_entry, Option.bind_eq_bind, Option.bind_eq_some_iff,
      pack_eq_some, pack_str_eq_some, Option.some.injEq] at writes
    obtain ⟨_, ⟨fits, rfl⟩, utf8, isStr, rfl⟩ := writes
    exact ⟨fits, utf8, isStr, rfl⟩
  rw [map_id] at derived
  exact ⟨few, entries, derived, rfl⟩

theorem normalizerLeaf_derives (tables : UnicodeTables) (leaf : NormalizerJson)
    (bytes : List Byte) (writes : writeNormalizerLeaf tables leaf = some bytes) :
    ∃ type body, bytes = type :: body ∧ type ≠ 4 ∧
      NormalizerBytes type.toNat body (leaf.normalizer tables) := by
  cases leaf with
  | nfkc =>
    simp only [writeNormalizerLeaf, Option.bind_eq_bind, Option.bind_eq_some_iff,
      Option.some.injEq] at writes
    obtain ⟨table, writes, rfl⟩ := writes
    exact ⟨6, table, rfl, by decide, .nfkc (normTable_derives writes)⟩
  | nfc =>
    simp only [writeNormalizerLeaf, Option.bind_eq_bind, Option.bind_eq_some_iff,
      Option.some.injEq] at writes
    obtain ⟨table, writes, rfl⟩ := writes
    exact ⟨9, table, rfl, by decide, .nfc (normTable_derives writes)⟩
  | prepend s =>
    simp only [writeNormalizerLeaf, Option.bind_eq_bind, Option.bind_eq_some_iff,
      pack_str_eq_some, Option.some.injEq] at writes
    obtain ⟨body, isStr, rfl⟩ := writes
    exact ⟨2, body, rfl, by decide, .prepend isStr⟩
  | replace pattern content =>
    simp only [writeNormalizerLeaf, Option.bind_eq_bind, Option.bind_eq_some_iff,
      pack_str_eq_some, Option.some.injEq] at writes
    obtain ⟨first, isPattern, second, isContent, rfl⟩ := writes
    exact ⟨3, first ++ second, rfl, by decide, .replace isPattern isContent⟩
  | bertNormalizer clean_text handle_chinese_chars strip_accents lowercase =>
    obtain ⟨clean, isClean, cleanValue⟩ := boolBytes_pack clean_text
    obtain ⟨chinese, isChinese, chineseValue⟩ := boolBytes_pack handle_chinese_chars
    obtain ⟨lower, isLower, lowerValue⟩ := boolBytes_pack lowercase
    cases strip_accents with
    | true =>
      simp only [writeNormalizerLeaf, if_true, isClean, isChinese, isLower,
        Option.bind_eq_bind, Option.bind_eq_some_iff, Option.some.injEq] at writes
      obtain ⟨nfd, writes, rfl⟩ := writes
      simp only [NormalizerJson.normalizer, if_true, cleanValue, chineseValue, lowerValue]
      exact ⟨7, clean :: chinese :: 1 :: lower :: nfd, rfl, by decide,
        .bertNfd clean chinese 1 lower rfl (normTable_derives writes)⟩
    | false =>
      simp only [writeNormalizerLeaf, Bool.false_eq_true, if_false, isClean,
        isChinese, isLower, Option.bind_eq_bind, Option.bind_some,
        Option.some.injEq] at writes
      obtain rfl := writes
      simp only [NormalizerJson.normalizer, Bool.false_eq_true, if_false,
        cleanValue, chineseValue, lowerValue]
      exact ⟨5, [clean, chinese, 0, lower], rfl, by decide, .bert ..⟩
  | lowercase =>
    obtain rfl := Option.some.inj writes
    exact ⟨5, [0, 0, 0, 1], rfl, by decide, .bert 0 0 0 1⟩
  | stripAccents =>
    simp only [writeNormalizerLeaf, Option.bind_eq_bind, Option.bind_eq_some_iff,
      Option.some.injEq] at writes
    obtain ⟨nfd, writes, rfl⟩ := writes
    exact ⟨7, 0 :: 0 :: 1 :: 0 :: nfd, rfl, by decide,
      .bertNfd 0 0 1 0 rfl (normTable_derives writes)⟩
  | strip strip_left strip_right =>
    obtain rfl := Option.some.inj writes
    obtain ⟨left, isLeft, leftValue⟩ := boolBytes_pack strip_left
    obtain ⟨right, isRight, rightValue⟩ := boolBytes_pack strip_right
    rw [isLeft, isRight, leftValue, rightValue]
    exact ⟨8, [left, right], rfl, by decide, .strip left right⟩
  | other =>
    obtain rfl := Option.some.inj writes
    exact ⟨0, [], rfl, by decide, .none (by decide)⟩

/-- The ways to split that have a byte of their own. -/
def readBehavior : SplitBehavior → SplitBehavior
  | .isolated => .isolated
  | .mergedWithPrevious => .mergedWithPrevious
  | _ => .removed

theorem preTokenizerLeaf_derives (leaf : PreTokenizerJson) (bytes : List Byte)
    (writes : writePreTokenizerLeaf leaf = some bytes) :
    ∃ type body, bytes = type :: body ∧ type ≠ 6 ∧
      PreTokenizerBytes type.toNat body (leaf.preTokenizer readBehavior) := by
  cases leaf with
  | byteLevel use_regex =>
    obtain rfl := Option.some.inj writes
    exact ⟨1, _, rfl, by decide, .byteLevel (boolBytes_pack _)⟩
  | digits individual_digits =>
    obtain rfl := Option.some.inj writes
    exact ⟨2, _, rfl, by decide, .digits (boolBytes_pack _)⟩
  | metaspace replacement add_prefix_space =>
    simp only [writePreTokenizerLeaf, Option.bind_eq_bind, Option.bind_eq_some_iff,
      pack_str_eq_some, Option.some.injEq] at writes
    obtain ⟨rep, isStr, rfl⟩ := writes
    exact ⟨3, _, rfl, by decide, .metaspace isStr (boolBytes_pack _)⟩
  | split pattern invert behavior =>
    simp only [writePreTokenizerLeaf, Option.bind_eq_bind, Option.bind_eq_some_iff,
      pack_str_eq_some, Option.some.injEq] at writes
    obtain ⟨first, isPattern, rfl⟩ := writes
    have derived := PreTokenizerBytes.split (behavior_id behavior) isPattern (boolBytes_pack invert)
    refine ⟨4, _, rfl, by decide, ?_⟩
    cases behavior <;> exact derived
  | bertPreTokenizer =>
    obtain rfl := Option.some.inj writes
    exact ⟨5, [], rfl, by decide, .bert⟩
  | whitespaceSplit =>
    simp only [writePreTokenizerLeaf, Option.bind_eq_bind, Option.bind_eq_some_iff,
      pack_str_eq_some, Option.some.injEq] at writes
    obtain ⟨first, isPattern, rfl⟩ := writes
    exact ⟨4, _, rfl, by decide, PreTokenizerBytes.split 1 isPattern (boolBytes_pack false)⟩
  | other =>
    obtain rfl := Option.some.inj writes
    exact ⟨0, [], rfl, by decide, .none (by decide)⟩

theorem decoderLeaf_derives (leaf : DecoderJson) (bytes : List Byte)
    (writes : writeDecoderLeaf leaf = some bytes) :
    ∃ type body, bytes = type :: body ∧ type ≠ 7 ∧
      DecoderBytes type.toNat body (leaf.decoder int (some .byteLevel)) := by
  cases leaf with
  | byteLevel =>
    obtain rfl := Option.some.inj writes
    exact ⟨0, [], rfl, by decide, .byteLevel⟩
  | byteFallback =>
    obtain rfl := Option.some.inj writes
    exact ⟨1, [], rfl, by decide, .byteFallback⟩
  | metaspace replacement add_prefix_space =>
    simp only [writeDecoderLeaf, Option.bind_eq_bind, Option.bind_eq_some_iff,
      pack_str_eq_some, Option.some.injEq] at writes
    obtain ⟨rep, isStr, rfl⟩ := writes
    exact ⟨2, _, rfl, by decide, .metaspace isStr (boolBytes_pack _)⟩
  | wordPiece pfx cleanup =>
    simp only [writeDecoderLeaf, Option.bind_eq_bind, Option.bind_eq_some_iff,
      pack_str_eq_some, Option.some.injEq] at writes
    obtain ⟨first, isStr, rfl⟩ := writes
    exact ⟨3, _, rfl, by decide, .wordPiece isStr (boolBytes_pack _)⟩
  | fuse =>
    obtain rfl := Option.some.inj writes
    exact ⟨4, [], rfl, by decide, .fuse⟩
  | replace pattern content =>
    simp only [writeDecoderLeaf, Option.bind_eq_bind, Option.bind_eq_some_iff,
      pack_str_eq_some, Option.some.injEq] at writes
    obtain ⟨first, isPattern, second, isContent, rfl⟩ := writes
    exact ⟨5, _, rfl, by decide, .replace isPattern isContent⟩
  | strip content start stop =>
    simp only [writeDecoderLeaf, Option.bind_eq_bind, Option.bind_eq_some_iff,
      pack_str_eq_some, Option.some.injEq] at writes
    obtain ⟨first, isContent, second, isStart, third, isStop, rfl⟩ := writes
    exact ⟨6, _, rfl, by decide,
      .strip isContent (intBytes_of_pack isStart) (intBytes_of_pack isStop)⟩
  | other =>
    obtain rfl := Option.some.inj writes
    exact ⟨0, [], rfl, by decide, .byteLevel⟩

theorem addedTokens_derive {tokens : List AddedTokenJson}
    (writes : writeAddedTokens tokens = some bytes) :
    AddedTokensBytes bytes (tokens.map (AddedTokenJson.addedToken int)) := by
  simp only [writeAddedTokens, Option.bind_eq_bind, Option.bind_eq_some_iff,
    pack_eq_some, Option.some.injEq] at writes
  obtain ⟨_, ⟨few, rfl⟩, added, writes, rfl⟩ := writes
  rw [← length_map (f := AddedTokenJson.addedToken int)] at few ⊢
  refine ⟨few, added, packAll_derives (fun token _ bytes writes => ?_) writes, rfl⟩
  simp only [writeAddedToken, Option.bind_eq_bind, Option.bind_eq_some_iff,
    pack_str_eq_some, Option.some.injEq] at writes
  obtain ⟨id, isId, content, isContent, rfl⟩ := writes
  exact ⟨id, _, _, _, content, intBytes_of_pack isId, boolBytes_pack _,
    boolBytes_pack _, boolBytes_pack _, isContent, rfl⟩

/-! ## Tables of ids -/

theorem int_of_lt {number : Nat} (small : number < 2 ^ 31) : int number = (number : Int) := by
  have toNat : (BitVec.ofNat 32 number).toNat = number := by
    rw [BitVec.toNat_ofNat]
    omega
  unfold int
  rw [BitVec.toInt_eq_toNat_of_lt (by omega), toNat]

theorem int_lt (number : Nat) : int number < 2 ^ 31 := BitVec.toInt_lt

theorem merge_key_int (a b : Nat) : merge_key (int a) (int b) = merge_key (a : Int) (b : Int) := by
  unfold merge_key int
  rw [BitVec.ofInt_toInt, BitVec.ofInt_toInt, BitVec.ofInt_natCast, BitVec.ofInt_natCast]

theorem getElem?_foldl_set {values : List α}
    (agree : ∀ entry ∈ entries, values[entry.1.toNat]? = some entry.2)
    {table : List α} (sameLength : table.length = values.length) {index : Nat}
    (written : (∃ entry ∈ entries, entry.1.toNat = index) ∨ table[index]? = values[index]?) :
    (entries.foldl (fun table entry => table.set entry.1.toNat entry.2) table)[index]? =
      values[index]? := by
  induction entries generalizing table with
  | nil =>
    rcases written with ⟨_, impossible, -⟩ | before
    · exact absurd impossible not_mem_nil
    · exact before
  | cons entry entries ih =>
    rw [foldl_cons]
    refine ih (fun other member =>
      agree other (mem_cons_of_mem _ member))
      (by rw [length_set, sameLength]) ?_
    have first := agree entry mem_cons_self
    by_cases here : entry.1.toNat = index
    · right
      rw [here] at first
      obtain ⟨inside, -⟩ := List.getElem?_eq_some_iff.mp first
      rw [here, getElem?_set_self (by rw [sameLength]; exact inside), first]
    · rcases written with ⟨other, member, there⟩ | before
      · rcases mem_cons.mp member with rfl | member
        · exact absurd there here
        · exact Or.inl ⟨other, member, there⟩
      · right
        rw [getElem?_set_ne here, before]

theorem fillIds_of_perm (empty : α) {values : List α}
    (perm : entries.Perm (values.zipIdx.map fun entry => ((entry.2 : Int), entry.1))) :
    fillIds empty values.length entries = values := by
  have agree (entry : Int × α) (member : entry ∈ entries) :
      values[entry.1.toNat]? = some entry.2 := by
    obtain ⟨⟨value, index⟩, isEntry, rfl⟩ := mem_map.mp (perm.mem_iff.mp member)
    exact mem_zipIdx_iff_getElem?.mp isEntry
  apply ext_getElem?
  intro index
  refine getElem?_foldl_set agree length_replicate ?_
  by_cases inside : index < values.length
  · left
    refine ⟨((index : Int), values[index]), perm.mem_iff.mpr
      (mem_map.mpr ⟨(values[index], index), ?_, rfl⟩), rfl⟩
    exact mk_mem_zipIdx_iff_getElem?.mpr (getElem?_eq_getElem inside)
  · right
    rw [getElem?_eq_none (by rw [length_replicate]; omega), getElem?_eq_none (by omega)]

theorem perm_sortedVocab (vocab : List Text) :
    (((sortedVocab vocab).map fun entry => (entry.1, (entry.2 : Int))).map Prod.swap).Perm
      (vocab.zipIdx.map fun entry => ((entry.2 : Int), entry.1)) := by
  rw [map_map]
  exact (mergeSort_perm _ _).map _

theorem length_sortedMerges (pairs : List (Nat × Nat × Nat)) :
    (sortedMerges pairs).length = pairs.length :=
  (mergeSort_perm _ _).length_eq

variable {vocab : List Text}

section

variable {α : Type} {values : List α} {le : α × Nat → α × Nat → Bool}

theorem length_sorted : (values.zipIdx.mergeSort le).length = values.length := by
  rw [(mergeSort_perm _ _).length_eq, length_zipIdx]

theorem lt_of_mem_sorted {entry : α × Nat} (member : entry ∈ values.zipIdx.mergeSort le) :
    entry.2 < values.length :=
  (List.getElem?_eq_some_iff.mp
    (mem_zipIdx_iff_getElem?.mp ((mergeSort_perm _ _).mem_iff.mp member))).1

theorem getElem_mem_sorted {id : Nat} (inside : id < values.length) :
    (values[id], id) ∈ values.zipIdx.mergeSort le :=
  (mergeSort_perm _ _).mem_iff.mpr (mk_mem_zipIdx_iff_getElem?.mpr (getElem?_eq_getElem inside))

end

theorem length_of_mapM {f : α → Option β} {values : List α}
    {images : List β} (maps : values.mapM f = some images) :
    images.length = values.length := by
  induction values generalizing images with
  | nil =>
    obtain rfl := Option.some.inj maps
    rfl
  | cons value values ih =>
    rw [mapM_cons] at maps
    simp only [Option.bind_eq_bind, Option.bind_eq_some_iff, Option.pure_def,
      Option.some.injEq] at maps
    obtain ⟨first, -, others, maps, rfl⟩ := maps
    rw [length_cons, length_cons, ih maps]

theorem length_mergeIds (ids : mergeIds vocab merges = some pairs) :
    pairs.length = merges.length := by
  rw [length_of_mapM ids, length_zipIdx]

/-! ## The model -/

theorem entryBytes_of_write {entry : Text × Nat} (writes : writeEntry entry = some bytes) :
    EntryBytes bytes (entry.1, int entry.2) := by
  simp only [writeEntry, Option.bind_eq_bind, Option.bind_eq_some_iff,
    pack_str_eq_some, Option.some.injEq] at writes
  obtain ⟨token, isStr, tid, isId, rfl⟩ := writes
  exact ⟨token, tid, isStr, intBytes_of_pack isId, rfl⟩

theorem inRange_int {id vocab_size : Nat} (inside : id < vocab_size)
    (small : vocab_size ≤ 2 ^ 31) : InRange vocab_size (int id) := by
  rw [int_of_lt (lt_of_lt_of_le inside small)]
  exact ⟨Int.natCast_nonneg id, inside⟩

theorem sortedVocab_derives (small : vocab.length ≤ 2 ^ 31)
    (writes : packAll writeEntry (sortedVocab vocab) = some bytes) :
    Entries vocab.length bytes
      ((sortedVocab vocab).map fun entry => (entry.1, (entry.2 : Int))) := by
  refine packAll_derives (fun entry member bytes writes => ?_) writes
  have inside := lt_of_mem_sorted member
  have same := int_of_lt (lt_of_lt_of_le inside small)
  rw [← same]
  exact ⟨entryBytes_of_write writes, inRange_int inside small⟩

theorem sortedScores_derives {vocab : List (Text × Nat)} (small : vocab.length ≤ 2 ^ 31)
    (writes : packAll writeScoredEntry (sortedScores vocab) = some bytes) :
    ScoredEntries vocab.length bytes ((sortedScores vocab).map fun entry =>
        ((entry.1.1, (entry.2 : Int)), entry.1.2)) := by
  refine packAll_derives (fun entry member bytes writes => ?_) writes
  have inside := lt_of_mem_sorted member
  have same := int_of_lt (lt_of_lt_of_le inside small)
  simp only [writeScoredEntry, Option.bind_eq_bind, Option.bind_eq_some_iff,
    pack_eq_some, Option.some.injEq] at writes
  obtain ⟨first, writes, _, ⟨few, rfl⟩, rfl⟩ := writes
  rw [← same]
  exact ⟨⟨few, first, entryBytes_of_write writes, rfl⟩, inRange_int inside small⟩

theorem sortedMerges_derives (writes : packAll writeMerge (sortedMerges pairs) = some bytes) :
    Many MergeBytes bytes ((sortedMerges pairs).map fun merge =>
        (merge_key merge.1 merge.2.1, int merge.2.2)) := by
  refine packAll_derives (fun merge _ bytes writes => ?_) writes
  simp only [writeMerge, Option.bind_eq_bind, Option.bind_eq_some_iff, Option.some.injEq] at writes
  obtain ⟨first, isFirst, second, isSecond, third, isThird, rfl⟩ := writes
  exact ⟨int merge.1, int merge.2.1, first, second, third,
    intBytes_of_pack isFirst, intBytes_of_pack isSecond, intBytes_of_pack isThird,
    (merge_key_int _ _).symm, rfl⟩

theorem idToToken_sortedVocab (vocab : List Text) : idToToken vocab.length
        ((sortedVocab vocab).map fun entry => (entry.1, (entry.2 : Int))) =
      vocab :=
  fillIds_of_perm [] (perm_sortedVocab vocab)

theorem idToToken_sortedScores (vocab : List (Text × Nat)) : idToToken vocab.length
        ((sortedScores vocab).map fun entry => (entry.1.1, (entry.2 : Int))) =
      vocab.map Prod.fst := by
  rw [← @List.length_map _ _ vocab Prod.fst]
  apply fillIds_of_perm
  rw [map_map, zipIdx_map, map_map]
  exact (mergeSort_perm _ _).map _

theorem scores_sortedScores (vocab : List (Text × Nat)) : fillIds 0 vocab.length
        ((sortedScores vocab).map fun entry => ((entry.2 : Int), entry.1.2)) =
      vocab.map Prod.snd := by
  rw [← @List.length_map _ _ vocab Prod.snd]
  apply fillIds_of_perm
  rw [zipIdx_map, map_map]
  exact (mergeSort_perm _ _).map _

/-- The bytes of a model behind its type and the size of its vocabulary. -/
theorem model_derives (model : ModelJson) (byte_level : Bool) (small : model.vocab.length ≤ 2 ^ 31)
    (writes : writeModel byte_level model = some bytes) :
    ∃ (type : Byte) (body : List Byte), bytes = type :: (toBytes 4 model.vocab.length ++ body) ∧
        model.vocab.length < 256 ^ 4 ∧ ModelBytes type.toNat model.vocab.length body
            (some (model.tokenizerModel int byte_level)) := by
  cases model with
  | bpe byte_fallback vocab merges =>
    simp only [writeModel, Option.bind_eq_bind, Option.bind_eq_some_iff,
      pack_eq_some, Option.some.injEq] at writes
    obtain ⟨_, ⟨few, rfl⟩, _, ⟨fewMerges, rfl⟩, entries, isEntries, pairs, ids,
      written, isMerges, rfl⟩ := writes
    obtain ⟨fallback, isFallback, -⟩ := boolBytes_pack byte_fallback
    obtain ⟨level, isLevel, levelValue⟩ := boolBytes_pack byte_level
    have lengthEntries :
        ((sortedVocab vocab).map fun entry => (entry.1, (entry.2 : Int))).length =
          vocab.length := by
      rw [length_map, sortedVocab, length_sorted]
    have lengthMerges : ((sortedMerges pairs).map fun merge =>
          (merge_key merge.1 merge.2.1, int merge.2.2)).length = merges.length := by
      rw [length_map, length_sortedMerges, length_mergeIds ids]
    have derived := ModelBytes.bpe fallback level (lengthMerges ▸ fewMerges)
      (lengthEntries.symm ▸ sortedVocab_derives small isEntries)
      (sortedMerges_derives isMerges)
    rw [lengthMerges, lengthEntries, idToToken_sortedVocab, ← levelValue] at derived
    refine ⟨0, bpeHead fallback level merges.length ++ (entries ++ written), ?_, few, ?_⟩
    · rw [isFallback, isLevel]
      rfl
    · rw [ModelJson.tokenizerModel, ids, Option.getD_some]
      exact derived
  | wordPiece unk_token pfx max_chars vocab =>
    simp only [writeModel, Option.bind_eq_bind, Option.bind_eq_some_iff,
      pack_eq_some, pack_str_eq_some, Option.some.injEq] at writes
    obtain ⟨_, ⟨few, rfl⟩, unk, isUnk, pfx', isPfx, _, ⟨fits, rfl⟩, entries,
      isEntries, rfl⟩ := writes
    have lengthEntries :
        ((sortedVocab vocab).map fun entry => (entry.1, (entry.2 : Int))).length =
          vocab.length := by
      rw [length_map, sortedVocab, length_sorted]
    have derived := ModelBytes.wordPiece isUnk isPfx
      (⟨max_chars, fits, rfl, rfl⟩ : IntBytes _ (int max_chars))
      (lengthEntries.symm ▸ sortedVocab_derives small isEntries)
    rw [lengthEntries, idToToken_sortedVocab] at derived
    exact ⟨1, _, rfl, few, derived⟩
  | unigram unk_id byte_fallback vocab =>
    simp only [writeModel, Option.bind_eq_bind, Option.bind_eq_some_iff,
      pack_eq_some, Option.some.injEq] at writes
    obtain ⟨_, ⟨few, rfl⟩, _, ⟨fits, rfl⟩, entries, isEntries, rfl⟩ := writes
    rw [ModelJson.vocab, length_map] at small ⊢
    have lengthEntries : ((sortedScores vocab).map fun entry =>
          ((entry.1.1, (entry.2 : Int)), entry.1.2)).length = vocab.length := by
      rw [length_map, sortedScores, length_sorted]
    have derived := ModelBytes.unigram (⟨unk_id, fits, rfl, rfl⟩ : IntBytes _ (int unk_id))
      (boolBytes_pack byte_fallback)
      (lengthEntries.symm ▸ sortedScores_derives small isEntries)
    rw [lengthEntries, map_map, map_map] at derived
    have tokens := idToToken_sortedScores vocab
    have scores := scores_sortedScores vocab
    refine ⟨2, _, rfl, few, ?_⟩
    rw [ModelJson.tokenizerModel, ← tokens, ← scores]
    exact derived

/-! ## The program -/

def OpJson.isSpecialToken : OpJson → Bool
  | .sequenceA => false
  | .specialToken _ => true

/-- How many tokens a program inserts, and how often it inserts the sequence. -/
def specialTokens (ops : List OpJson) : Nat := ops.countP OpJson.isSpecialToken

def sequences (ops : List OpJson) : Nat := ops.countP fun op => !op.isSpecialToken

theorem length_eq_counts (ops : List OpJson) : ops.length = specialTokens ops + sequences ops := by
  rw [length_eq_countP_add_countP OpJson.isSpecialToken, specialTokens, sequences]
  simp only [Bool.not_eq_true, Bool.decide_eq_false]

section

variable {ops : List OpJson} {bytes : List Byte}

section

variable (writes : packAll writeOp ops = some bytes)

include writes

theorem length_writeOps :
    bytes.length = 5 * specialTokens ops + sequences ops := by
  induction ops generalizing bytes with
  | nil =>
    obtain rfl := Option.some.inj writes
    rfl
  | cons op ops ih =>
    simp only [packAll, Option.bind_eq_bind, Option.bind_eq_some_iff, Option.some.injEq] at writes
    obtain ⟨first, writesFirst, others, writesOthers, rfl⟩ := writes
    have length := ih writesOthers
    rw [length_append, length]
    unfold specialTokens sequences
    cases op with
    | sequenceA =>
      obtain rfl := Option.some.inj writesFirst
      rw [countP_cons_of_neg (by decide), countP_cons_of_pos rfl, length_singleton]
      omega
    | specialToken token_id =>
      simp only [writeOp, Option.bind_eq_bind, Option.bind_eq_some_iff,
        pack_eq_some, Option.some.injEq] at writesFirst
      obtain ⟨_, ⟨-, rfl⟩, rfl⟩ := writesFirst
      rw [countP_cons_of_pos rfl, countP_cons_of_neg Bool.false_ne_true,
        length_cons, length_toBytes]
      omega

theorem readOps_written :
    readOps ops.length bytes = .ok (ops.map (OpJson.op int), []) := by
  induction ops generalizing bytes with
  | nil =>
    obtain rfl := Option.some.inj writes
    rfl
  | cons op ops ih =>
    simp only [packAll, Option.bind_eq_bind, Option.bind_eq_some_iff, Option.some.injEq] at writes
    obtain ⟨first, writesFirst, others, writesOthers, rfl⟩ := writes
    have read := ih writesOthers
    cases op with
    | sequenceA =>
      obtain rfl := Option.some.inj writesFirst
      rw [length_cons, singleton_append, readOps_cons, if_pos rfl, bind_of_ok read]
      rfl
    | specialToken token_id =>
      simp only [writeOp, Option.bind_eq_bind, Option.bind_eq_some_iff,
        Option.some.injEq] at writesFirst
      obtain ⟨id, isId, rfl⟩ := writesFirst
      have enough : 4 ≤ (id ++ others).length := by
        obtain ⟨-, rfl⟩ := pack_eq_some.mp isId
        rw [length_append, length_toBytes]
        omega
      rw [length_cons, cons_append, readOps_cons, if_neg (by decide), if_pos ⟨rfl, enough⟩,
        bind_of_ok (reads_int.apply (intBytes_of_pack isId) others),
        bind_of_ok read]
      rfl

/-- A program is taken for ids only if three tokens go with each sequence. -/
theorem length_eq_ids_iff :
    bytes.length = ops.length * 4 ↔ specialTokens ops = 3 * sequences ops := by
  rw [length_writeOps writes, length_eq_counts]
  omega

end

theorem readPostProcessor_written (few : ops.length < 256 ^ 2) (writes : packAll writeOp ops = some bytes)
    (notOld : specialTokens ops ≠ 3 * sequences ops) :
    readPostProcessor (toBytes 2 ops.length ++ bytes) = .ok (ops.map (OpJson.op int), []) := by
  rw [readPostProcessor_eq few, if_neg, readOps_written writes]
  rwa [length_eq_ids_iff writes]

theorem length_of_old (few : ops.length < 256 ^ 2) (writes : packAll writeOp ops = some bytes)
    (old : specialTokens ops = 3 * sequences ops) {ops' : List PostProcessorOp}
    (read : readPostProcessor (toBytes 2 ops.length ++ bytes) = .ok (ops', rest)) :
    ops'.length = ops.length + 1 := by
  rw [readPostProcessor_eq few, if_pos ((length_eq_ids_iff writes).mpr old)] at read
  obtain ⟨ids, _, isIds, read⟩ := bind_eq_ok.mp read
  obtain ⟨rfl, -⟩ := pure_eq_ok.mp read
  obtain ⟨_, -, length, -⟩ := reads_int.sound.many _ _ _ _ isIds
  rw [length_cons, length_map, length]

end

theorem readSections_written (tokenizer : PipelineTokenizer)
    {chat_template eos_token bos_token : Text} (flag : Bool)
    {eos bos program : List Byte} (few : chat_template.length < 256 ^ 4)
    (isEos : StrBytes eos eos_token) (isBos : StrBytes bos bos_token) (begins : program ≠ []) :
    readSections tokenizer (toBytes 4 chat_template.length ++ (chat_template ++ (eos ++
          (pack_bool flag ++ (bos ++ program))))) =
      (readPostProcessor >>= fun post_single_ops_ =>
        pure { tokenizer with
          chat_template_ := chat_template
          chat_template_eos_ := eos_token
          clean_up_spaces_ := flag
          chat_template_bos_ := bos_token
          post_single_ops_ }) program := by
  have bosRead : optionalSection [] read_str (bos ++ program) = .ok (bos_token, program) := by
    rw [optionalSection_eq, if_neg, reads_str.apply isBos]
    exact fun none => begins (append_eq_nil_iff.mp none).2
  have programRead : optionalSection [] readPostProcessor program = readPostProcessor program := by
    rw [optionalSection_eq, if_neg begins]
  have flagRead : readFlags (pack_bool flag ++ (bos ++ program)) = .ok (flag, bos ++ program) := by
    cases flag with
    | false => rfl
    | true => rfl
  have templateRead :
      readTemplate (toBytes 4 chat_template.length ++ (chat_template ++ (eos ++
          (pack_bool flag ++ (bos ++ program))))) =
        .ok ((chat_template, eos_token), pack_bool flag ++ (bos ++ program)) := by
    have eosRead :
        optionalSection [] read_str (eos ++ (pack_bool flag ++ (bos ++ program))) =
          .ok (eos_token, pack_bool flag ++ (bos ++ program)) := by
      rw [optionalSection_eq, if_neg, reads_str.apply isEos]
      exact fun none => nomatch (append_eq_nil_iff.mp (append_eq_nil_iff.mp none).2).1
    rw [readTemplate, optionalSection_eq, if_neg]
    · exact bind_eq_ok.mpr ⟨_, _, number_eq_ok.mpr ⟨rfl, few⟩,
        bind_eq_ok.mpr ⟨_, _, block_eq_ok.mpr ⟨rfl, rfl⟩, bind_eq_ok.mpr ⟨_, _, eosRead, rfl⟩⟩⟩
    · intro none
      have length := congrArg List.length none
      rw [length_append, length_toBytes, length_nil] at length
      omega
  rw [readSections, bind_of_ok templateRead]
  dsimp only
  rw [bind_of_ok flagRead, bind_of_ok bosRead, bind_congr_input programRead]

/-! ## The whole file -/

/-- The numbers of the model that are not ids of its vocabulary. -/
def ModelJson.IntsFit : ModelJson → Prop
  | .bpe _ _ merges => merges.length ≤ 2 ^ 31
  | .wordPiece _ _ max_chars _ => max_chars < 2 ^ 31
  | .unigram unk_id _ _ => unk_id < 2 ^ 31

/-- What the format can tell apart. -/
structure Faithful (description : Description) : Prop where
  behaviors : ∀ pattern invert behavior,
    .split pattern invert behavior ∈ description.pre_tokenizer.leaves →
      behavior ≠ .mergedWithNext ∧ behavior ≠ .contiguous
  decoders : .other ∉ description.decoder.leaves
  strips : ∀ content start stop, .strip content start stop ∈ description.decoder.leaves →
      start < 2 ^ 31 ∧ stop < 2 ^ 31
  vocab : description.model.vocab.length ≤ 2 ^ 31
  model : description.model.IntsFit
  addedTokens : ∀ token ∈ description.added_tokens, token.id < 2 ^ 31
  specialTokens : ∀ token_id,
    .specialToken token_id ∈ description.post_single_ops → token_id < 2 ^ 31
  program : Mtok.specialTokens description.post_single_ops ≠
      3 * sequences description.post_single_ops

theorem int_eq_iff {number : Nat} : int number = Int.ofNat number ↔ number < 2 ^ 31 := by
  constructor
  · intro same
    have small := int_lt number
    rw [same, Int.ofNat_eq_natCast] at small
    omega
  · exact int_of_lt

theorem preTokenizer_eq_iff (tree : Composite PreTokenizerJson) :
    tree.filterMap (PreTokenizerJson.preTokenizer readBehavior) =
        tree.filterMap (PreTokenizerJson.preTokenizer id) ↔
      ∀ pattern invert behavior, .split pattern invert behavior ∈ tree.leaves →
        behavior ≠ .mergedWithNext ∧ behavior ≠ .contiguous := by
  rw [Composite.filterMap_eq_iff]
  · constructor
    · intro same pattern invert behavior member
      have leaf := same _ member
      simp only [PreTokenizerJson.preTokenizer, id, Option.some.injEq,
        PreTokenizerLeaf.split.injEq, true_and] at leaf
      constructor
      · rintro rfl
        nomatch leaf
      · rintro rfl
        nomatch leaf
    · intro behaviors leaf member
      cases leaf with
      | split pattern invert behavior =>
        obtain ⟨notNext, notContiguous⟩ := behaviors _ _ _ member
        cases behavior with
        | mergedWithNext => exact absurd rfl notNext
        | contiguous => exact absurd rfl notContiguous
        | _ => rfl
      | _ => rfl
  · intro leaf isSome
    cases leaf with
    | other => exact isSome
    | _ => rfl

theorem decoder_eq_iff (tree : Composite DecoderJson) :
    tree.filterMap (DecoderJson.decoder int (some .byteLevel)) =
        tree.filterMap (DecoderJson.decoder Int.ofNat none) ↔
      .other ∉ tree.leaves ∧ ∀ content start stop, .strip content start stop ∈ tree.leaves →
          start < 2 ^ 31 ∧ stop < 2 ^ 31 := by
  rw [Composite.filterMap_eq_iff]
  · constructor
    · intro same
      refine ⟨fun member => (nomatch same _ member), fun content start stop member => ?_⟩
      have leaf := same _ member
      simp only [DecoderJson.decoder, Option.some.injEq, DecoderLeaf.strip.injEq,
        true_and, int_eq_iff] at leaf
      exact leaf
    · rintro ⟨noOther, strips⟩ leaf member
      cases leaf with
      | strip content start stop =>
        obtain ⟨startFits, stopFits⟩ := strips _ _ _ member
        rw [DecoderJson.decoder, DecoderJson.decoder, int_eq_iff.mpr startFits,
          int_eq_iff.mpr stopFits]
      | other => exact absurd member noOther
      | _ => rfl
  · intro leaf isSome
    cases leaf with
    | other => rfl
    | _ => rfl

theorem rank_mem_mergeIds (ids : mergeIds vocab merges = some pairs)
    (rank : Nat) : rank ∈ pairs.map (fun pair => pair.2.2) ↔ rank < merges.length := by
  have ranks : pairs.map (fun pair => pair.2.2) = merges.zipIdx.map Prod.snd := by
    unfold mergeIds at ids
    generalize merges.zipIdx = indexed at ids
    induction indexed generalizing pairs with
    | nil =>
      obtain rfl := Option.some.inj ids
      rfl
    | cons merge indexed ih =>
      rw [mapM_cons] at ids
      simp only [Option.bind_eq_bind, Option.bind_eq_some_iff, Option.pure_def,
        Option.some.injEq] at ids
      obtain ⟨_, ⟨_, -, _, -, rfl⟩, others, ids, rfl⟩ := ids
      rw [map_cons, map_cons, ih ids]
  rw [ranks, zipIdx_map_snd, mem_range'_1]
  omega

theorem model_eq_iff {model : ModelJson} {byte_level : Bool}
    (writes : writeModel byte_level model = some bytes) :
    model.tokenizerModel int byte_level = model.tokenizerModel Int.ofNat byte_level ↔
      model.IntsFit := by
  cases model with
  | bpe byte_fallback vocab merges =>
    simp only [writeModel, Option.bind_eq_bind, Option.bind_eq_some_iff] at writes
    obtain ⟨_, -, _, -, _, -, pairs, ids, -⟩ := writes
    simp only [ModelJson.tokenizerModel, TokenizerModel.bpe.injEq, true_and, and_true,
      ModelJson.IntsFit, ids, Option.getD_some, map_inj_left, Prod.mk.injEq,
      int_eq_iff]
    constructor
    · intro fits
      by_contra many
      have rank := (rank_mem_mergeIds ids (2 ^ 31)).mpr (by omega)
      obtain ⟨pair, member, isRank⟩ := mem_map.mp rank
      have fit := fits pair ((mergeSort_perm _ _).mem_iff.mpr member)
      omega
    · intro few pair member
      have rank := (rank_mem_mergeIds ids pair.2.2).mp
        (mem_map_of_mem ((mergeSort_perm _ _).mem_iff.mp member))
      omega
  | wordPiece unk_token pfx max_chars vocab =>
    simp only [ModelJson.tokenizerModel, TokenizerModel.wordPiece.injEq, true_and,
      and_true, ModelJson.IntsFit, int_eq_iff]
  | unigram unk_id byte_fallback vocab =>
    simp only [ModelJson.tokenizerModel, TokenizerModel.unigram.injEq, and_true,
      ModelJson.IntsFit, int_eq_iff]

theorem addedTokens_eq_iff (tokens : List AddedTokenJson) :
    tokens.map (AddedTokenJson.addedToken int) = tokens.map (AddedTokenJson.addedToken Int.ofNat) ↔
      ∀ token ∈ tokens, token.id < 2 ^ 31 := by
  simp only [map_inj_left, AddedTokenJson.addedToken, AddedToken.mk.injEq, and_true, int_eq_iff]

theorem ops_eq_iff (ops : List OpJson) :
    ops.map (OpJson.op int) = ops.map (OpJson.op Int.ofNat) ↔
      ∀ token_id, .specialToken token_id ∈ ops → token_id < 2 ^ 31 := by
  rw [map_inj_left]
  constructor
  · intro same token_id member
    exact int_eq_iff.mp (PostProcessorOp.specialToken.inj (same _ member))
  · intro fits op member
    cases op with
    | sequenceA => rfl
    | specialToken token_id =>
      exact congrArg _ (int_eq_iff.mpr (fits token_id member))

theorem ModelBytes.lt {type vocab_size : Nat} {model : TokenizerModel}
    (derived : ModelBytes type vocab_size bytes (some model)) :
    ∀ entry ∈ model.sorted_vocab, entry.2 < 2 ^ 31 := by
  have ofEntry {bytes : List Byte} {entry : VocabEntry}
      (isEntry : EntryBytes bytes entry) : entry.2 < 2 ^ 31 := by
    obtain ⟨_, _, -, ⟨number, -, -, same⟩, -⟩ := isEntry
    rw [same]
    exact int_lt number
  intro entry member
  cases derived with
  | bpe _ _ _ isEntries _ =>
    obtain ⟨_, isEntry, -⟩ := isEntries.exists entry member
    exact ofEntry isEntry
  | wordPiece _ _ _ isEntries =>
    obtain ⟨_, isEntry, -⟩ := isEntries.exists entry member
    exact ofEntry isEntry
  | unigram _ _ isEntries =>
    obtain ⟨scored, isScored, rfl⟩ := mem_map.mp member
    obtain ⟨_, ⟨-, _, isEntry, -⟩, -⟩ := isEntries.exists scored isScored
    exact ofEntry isEntry

theorem exists_mem_sorted_vocab (model : ModelJson) (read : Nat → Int)
    (byte_level : Bool) {id : Nat} (inside : id < model.vocab.length) :
    ∃ entry ∈ (model.tokenizerModel read byte_level).sorted_vocab, entry.2 = id := by
  cases model with
  | unigram unk_id byte_fallback vocab =>
    rw [ModelJson.vocab, length_map] at inside
    exact ⟨_, mem_map_of_mem (getElem_mem_sorted inside), rfl⟩
  | bpe byte_fallback vocab merges =>
    exact ⟨_, mem_map_of_mem (getElem_mem_sorted inside), rfl⟩
  | wordPiece unk_token pfx max_chars vocab =>
    exact ⟨_, mem_map_of_mem (getElem_mem_sorted inside), rfl⟩

theorem vocab_le_of_loaded {tables : UnicodeTables}
    (loaded : load_vocab_binary bytes = .ok (description.tokenizer tables, rest)) :
    description.model.vocab.length ≤ 2 ^ 31 := by
  obtain ⟨_, _, model_, _, _, _, _, _, _, _, _, type, _, -, -, -, isModel, -, -, -, read⟩ :=
    load_eq_sections.mp loaded
  obtain rfl := readSections_model read
  by_contra many
  obtain ⟨entry, member, isId⟩ := exists_mem_sorted_vocab description.model Int.ofNat
      (byte_level description.pre_tokenizer description.decoder)
      (Nat.lt_of_not_le many)
  have small := isModel.lt entry member
  omega

theorem load_written {tables : UnicodeTables} (small : description.model.vocab.length ≤ 2 ^ 31)
    (writes : export_mtok tables description = some bytes) :
    ∃ ops, description.post_single_ops.length < 256 ^ 2 ∧
      packAll writeOp description.post_single_ops = some ops ∧ load_vocab_binary bytes =
          (readPostProcessor >>= fun post_single_ops_ =>
            pure {
              normalizer_ := description.normalizer.filterMap (NormalizerJson.normalizer tables)
              pre_tokenizer_ := description.pre_tokenizer.filterMap
                  (PreTokenizerJson.preTokenizer readBehavior)
              model_ :=
                some (description.model.tokenizerModel int
                  (byte_level description.pre_tokenizer description.decoder))
              decoder_ := description.decoder.filterMap (DecoderJson.decoder int (some .byteLevel))
              added_tokens_ := description.added_tokens.map (AddedTokenJson.addedToken int)
              chat_template_ := description.chat_template
              chat_template_eos_ := description.eos_token
              clean_up_spaces_ := description.clean_up_tokenization_spaces
              chat_template_bos_ := description.bos_token
              post_single_ops_ })
            (toBytes 2 description.post_single_ops.length ++ ops) := by
  simp only [export_mtok, Option.bind_eq_bind, Option.bind_eq_some_iff, pack_eq_some,
    pack_str_eq_some, Option.some.injEq] at writes
  obtain ⟨normalizer, isNormalizer, preTokenizer, isPreTokenizer, model, isModel,
    decoder, isDecoder, added, isAdded, _, ⟨fewTemplate, rfl⟩, eos, isEos, bos, isBos,
    _, ⟨fewOps, rfl⟩, ops, isOps, rfl⟩ := writes
  obtain ⟨type, body, rfl, fewVocab, derived⟩ := model_derives _ _ small isModel
  refine ⟨ops, fewOps, isOps, ?_⟩
  have begins : toBytes 2 description.post_single_ops.length ++ ops ≠ [] := by
    intro none
    have length := congrArg List.length none
    rw [length_append, length_toBytes, length_nil] at length
    omega
  have modelRead (rest : List Byte) :
      readModel (type :: (toBytes 4 description.model.vocab.length ++ body) ++ rest) =
        .ok (some (description.model.tokenizerModel int
          (byte_level description.pre_tokenizer description.decoder)), rest) := by
    refine bind_eq_ok.mpr ⟨type, _, rfl, bind_eq_ok.mpr
      ⟨_, _, number_eq_ok.mpr ⟨append_assoc .., fewVocab⟩, ?_⟩⟩
    exact (reads_modelBody type _).apply derived rest
  rw [load_vocab_binary, bind_of_ok (reads_normalizer_bin.apply
      (writeTree_derives (normalizerLeaf_derives tables) _ isNormalizer) _),
    bind_of_ok (reads_pre_tokenizer_bin.apply
      (writeTree_derives preTokenizerLeaf_derives _ isPreTokenizer) _),
    bind_of_ok (modelRead _),
    bind_of_ok (reads_decoder_bin.apply (writeTree_derives decoderLeaf_derives _ isDecoder) _),
    bind_of_ok (reads_addedTokens.apply (addedTokens_derive isAdded) _),
    readSections_written _ _ fewTemplate isEos isBos begins]

/--
What is written is loaded again, to the last byte and as it was described, just
where the format can tell the descriptions apart.
-/
theorem round_trip_iff (tables : UnicodeTables) (description : Description)
    (bytes : List Byte) (writes : export_mtok tables description = some bytes) :
    load_vocab_binary bytes = .ok (description.tokenizer tables, []) ↔ Faithful description := by
  by_cases small : description.model.vocab.length ≤ 2 ^ 31
  · have isModel : ∃ model, writeModel (byte_level description.pre_tokenizer description.decoder)
          description.model = some model := by
      simp only [export_mtok, Option.bind_eq_bind, Option.bind_eq_some_iff] at writes
      obtain ⟨_, -, _, -, model, isModel, -⟩ := writes
      exact ⟨model, isModel⟩
    obtain ⟨model, isModel⟩ := isModel
    obtain ⟨ops, few, isOps, loads⟩ := load_written small writes
    rw [loads, bind_eq_ok]
    simp only [pure_eq_ok]
    constructor
    · rintro ⟨program, rest, read, same, rfl⟩
      simp only [Description.tokenizer, PipelineTokenizer.mk.injEq, true_and,
        Option.some.injEq] at same
      obtain ⟨samePreTokenizer, sameModel, sameDecoder, sameAdded, sameOps⟩ := same
      have notOld : specialTokens description.post_single_ops ≠
          3 * sequences description.post_single_ops := by
        intro old
        have length := length_of_old few isOps old read
        rw [← sameOps, length_map] at length
        omega
      obtain ⟨rfl, -⟩ := Prod.mk.inj (Except.ok.inj
        ((readPostProcessor_written few isOps notOld).symm.trans read))
      obtain ⟨noOther, strips⟩ := (decoder_eq_iff _).mp sameDecoder.symm
      exact {
        behaviors := (preTokenizer_eq_iff _).mp samePreTokenizer.symm
        decoders := noOther
        strips := strips
        vocab := small
        model := (model_eq_iff isModel).mp sameModel.symm
        addedTokens := (addedTokens_eq_iff _).mp sameAdded.symm
        specialTokens := (ops_eq_iff _).mp sameOps.symm
        program := notOld }
    · intro faithful
      refine ⟨_, [], readPostProcessor_written few isOps faithful.program, ?_, rfl⟩
      rw [Description.tokenizer, (preTokenizer_eq_iff _).mpr faithful.behaviors,
        (model_eq_iff isModel).mpr faithful.model,
        (decoder_eq_iff _).mpr ⟨faithful.decoders, faithful.strips⟩,
        (addedTokens_eq_iff _).mpr faithful.addedTokens,
        (ops_eq_iff _).mpr faithful.specialTokens]
  · exact iff_of_false (fun loads => small (vocab_le_of_loaded loads))
      fun faithful => small faithful.vocab

/-- A tokenizer with one string and three special tokens. -/
def sampleDescription (post_single_ops : List OpJson) : Description where
  normalizer := .sequence [.leaf (.prepend [0x20]), .leaf .lowercase]
  pre_tokenizer := .leaf (.byteLevel true)
  model := .wordPiece [0x61] [0x23, 0x23] 100 [[0x61]]
  decoder := .sequence [.leaf .byteLevel, .leaf .fuse]
  added_tokens := [
    { id := 1, content := [0x62], special := true, lstrip := false, rstrip := true },
    { id := 2, content := [0x63], special := true, lstrip := false, rstrip := false },
    { id := 3, content := [0x64], special := true, lstrip := false, rstrip := false }]
  chat_template := [0x7B]
  eos_token := [0x63]
  clean_up_tokenization_spaces := true
  bos_token := [0x62]
  post_single_ops

def noTables : UnicodeTables := ⟨[], [], []⟩

theorem export_sample (ops : List OpJson)
    (few : ops.length < 256 ^ 2) (writes : packAll writeOp ops = some bytes) :
    export_mtok noTables (sampleDescription ops) =
      some ([4, 2, 0, 0, 0, 2, 1, 0, 0x20, 5, 0, 0, 0, 1, 1, 1,
        1, 1, 0, 0, 0, 1, 0, 0x61, 2, 0, 0x23, 0x23, 100, 0, 0, 0,
        1, 0, 0x61, 0, 0, 0, 0, 7, 2, 0, 0, 0, 0, 4,
        3, 0, 0, 0, 1, 0, 0, 0, 1, 0, 1, 1, 0, 0x62,
        2, 0, 0, 0, 1, 0, 0, 1, 0, 0x63, 3, 0, 0, 0, 1, 0, 0, 1, 0, 0x64,
        1, 0, 0, 0, 0x7B, 1, 0, 0x63, 1, 1, 0, 0x62] ++ (toBytes 2 ops.length ++ bytes)) := by
  have sorted : sortedVocab [[0x61]] = [([0x61], 0)] := mergeSort_singleton _
  have count : pack 2 ops.length = some (toBytes 2 ops.length) := pack_eq_some.mpr ⟨few, rfl⟩
  simp only [export_mtok, sampleDescription, writeModel, sorted, count, writes]
  rfl

/-- A program of one token in front of the sequence comes back. -/
theorem round_trip_sample :
    ∃ bytes, export_mtok noTables (sampleDescription [.specialToken 1, .sequenceA]) =
          some bytes ∧
        load_vocab_binary bytes =
          .ok ((sampleDescription [.specialToken 1, .sequenceA]).tokenizer noTables, []) := by
  have writes := export_sample [.specialToken 1, .sequenceA] (by decide) rfl
  refine ⟨_, writes, (round_trip_iff _ _ _ writes).mpr ?_⟩
  exact {
    behaviors := by
      intro _ _ _ member
      nomatch mem_singleton.mp member
    decoders := by
      intro member
      rcases mem_cons.mp member with impossible | member
      · nomatch impossible
      · nomatch mem_singleton.mp member
    strips := by
      intro _ _ _ member
      rcases mem_cons.mp member with impossible | member
      · nomatch impossible
      · nomatch mem_singleton.mp member
    vocab := by decide
    model := by
      show 100 < 2 ^ 31
      decide
    addedTokens := by decide
    specialTokens := by
      intro token_id member
      rcases mem_cons.mp member with same | member
      · rw [OpJson.specialToken.inj same]
        decide
      · nomatch mem_singleton.mp member
    program := by decide }

/-- With three tokens and the sequence the program is taken for ids. -/
theorem not_round_trip :
    ¬∀ tables description bytes, export_mtok tables description = some bytes →
      load_vocab_binary bytes = .ok (description.tokenizer tables, []) := by
  intro roundTrip
  have loads := roundTrip _ _ _ (export_sample
    [.sequenceA, .specialToken 1, .specialToken 2, .specialToken 3] (by decide) rfl)
  have program := congrArg (fun result => result.toOption.map fun read =>
    read.1.post_single_ops_.length) loads
  exact absurd program (by decide)

end Mnn.Mtok
