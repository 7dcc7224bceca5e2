import Mnn.Llm.MtokGrammar

/-!
# What becomes of malformed bytes

No reader knows where the bytes end, and a model of another type is left out
without a word.  So the bytes have to be complete, or to be refused at an id
before they end.
-/

variable {result : PipelineTokenizer × List Byte}

namespace Mnn.Mtok

open Mnn.Foundation BitFields ByteReader
open List

/-! ## Readers that do not reject -/

theorem plain_normTable : Plain read_norm_table := (Plain.number 4).bind
    (((Plain.number 4).bind fun _ => plain_str.bind fun _ => Plain.pure _).many)

theorem plain_normalizerLeaf (type : Byte) : Plain (readNormalizerLeaf type) := by
  unfold readNormalizerLeaf
  split
  · exact Plain.pure _
  · exact plain_str.bind fun _ => Plain.pure _
  · exact plain_str.bind fun _ => plain_str.bind fun _ => Plain.pure _
  · exact plain_bool.bind fun _ => plain_bool.bind fun _ => plain_bool.bind fun _ =>
      plain_bool.bind fun _ => Plain.pure _
  · exact plain_normTable.bind fun _ => Plain.pure _
  · refine plain_bool.bind fun _ => plain_bool.bind fun _ =>
      plain_bool.bind fun strip => plain_bool.bind fun _ => ?_
    cases strip with
    | true => exact plain_normTable.bind fun _ => Plain.pure _
    | false => exact (Plain.pure _).bind fun _ => Plain.pure _
  · exact plain_bool.bind fun _ => plain_bool.bind fun _ => Plain.pure _
  · exact plain_normTable.bind fun _ => Plain.pure _
  · exact Plain.pure _

theorem plain_preTokenizerLeaf (type : Byte) : Plain (readPreTokenizerLeaf type) := by
  unfold readPreTokenizerLeaf
  split
  · exact plain_bool.bind fun _ => Plain.pure _
  · exact plain_bool.bind fun _ => Plain.pure _
  · exact plain_str.bind fun _ => plain_bool.bind fun _ => Plain.pure _
  · exact plain_str.bind fun _ => plain_bool.bind fun _ => Plain.byte.bind fun _ =>
      Plain.pure _
  · exact Plain.pure _
  · exact Plain.pure _

theorem plain_decoderLeaf (type : Byte) : Plain (readDecoderLeaf type) := by
  unfold readDecoderLeaf
  split
  · exact Plain.pure _
  · exact Plain.pure _
  · exact plain_str.bind fun _ => plain_bool.bind fun _ => Plain.pure _
  · exact plain_str.bind fun _ => plain_bool.bind fun _ => Plain.pure _
  · exact Plain.pure _
  · exact plain_str.bind fun _ => plain_str.bind fun _ => Plain.pure _
  · exact plain_str.bind fun _ => plain_int.bind fun _ => plain_int.bind fun _ =>
      Plain.pure _
  · exact Plain.pure _

/-- The recursive readers come to an end; they fail only behind the bytes. -/
theorem plain_normalizer_bin : Plain read_normalizer_bin :=
  plain_readTree reads_normalizerLeaf plain_normalizerLeaf

theorem plain_pre_tokenizer_bin : Plain read_pre_tokenizer_bin :=
  plain_readTree reads_preTokenizerLeaf plain_preTokenizerLeaf

theorem plain_decoder_bin : Plain read_decoder_bin :=
  plain_readTree reads_decoderLeaf plain_decoderLeaf

theorem plain_addedTokens : Plain readAddedTokens := (Plain.number 4).bind
    ((plain_int.bind fun _ => plain_bool.bind fun _ => plain_bool.bind fun _ =>
      plain_bool.bind fun _ => plain_str.bind fun _ => Plain.pure _).many)

theorem plain_remaining : Plain remaining := fun _ _ impossible => nomatch impossible

theorem Plain.optionalSection {α : Type} {reader : Reader α} (plain : Plain reader) (absent : α) :
    Plain (optionalSection absent reader) := by
  refine plain_remaining.bind fun left => ?_
  split
  · exact Plain.pure _
  · exact plain

theorem plain_ops (count : Nat) : Plain (readOps count) := by
  induction count with
  | zero => exact Plain.pure _
  | succ count ih =>
    unfold readOps
    refine plain_remaining.bind fun left => ?_
    split
    · exact Plain.pure _
    · refine Plain.byte.bind fun op_type => ?_
      split
      · exact ih.bind fun _ => Plain.pure _
      · split
        · exact plain_int.bind fun _ => ih.bind fun _ => Plain.pure _
        · exact Plain.pure _

theorem plain_postProcessor : Plain readPostProcessor := by
  refine (Plain.number 2).bind fun count => plain_remaining.bind fun left => ?_
  split
  · exact (plain_int.many count).bind fun _ => Plain.pure _
  · exact plain_ops count

theorem plain_sections (tokenizer : PipelineTokenizer) : Plain (readSections tokenizer) := by
  have template : Plain readTemplate :=
    Plain.optionalSection ((Plain.number 4).bind fun _ => (Plain.block _).bind
      fun _ => (Plain.optionalSection plain_str []).bind fun _ => Plain.pure _) _
  have flags : Plain readFlags := Plain.optionalSection (Plain.byte.bind fun _ => Plain.pure _) _
  exact template.bind fun _ => flags.bind fun _ =>
    (Plain.optionalSection plain_str []).bind fun _ =>
      (Plain.optionalSection plain_postProcessor []).bind fun _ => Plain.pure _

/-! ## The optional sections -/

/-- Each section is complete or, with all behind it, not there. -/
def PostProcessorSection (bytes : List Byte) : Prop := bytes = [] ∨ 2 ≤ bytes.length

def BosSection (bytes : List Byte) : Prop :=
  bytes = [] ∨ ∃ bos s rest, StrBytes bos s ∧ PostProcessorSection rest ∧ bytes = bos ++ rest

def FlagsSection (bytes : List Byte) : Prop :=
  bytes = [] ∨ ∃ flags rest, BosSection rest ∧ bytes = flags :: rest

def EosSection (bytes : List Byte) : Prop :=
  bytes = [] ∨ ∃ eos s rest, StrBytes eos s ∧ FlagsSection rest ∧ bytes = eos ++ rest

def TemplateSection (bytes : List Byte) : Prop :=
  bytes = [] ∨ ∃ tpl rest, tpl.length < 256 ^ 4 ∧ EosSection rest ∧
    bytes = toBytes 4 tpl.length ++ (tpl ++ rest)

theorem readOps_succeeds (count : Nat) (input : List Byte) :
    ∃ result, readOps count input = .ok result := by
  induction count generalizing input with
  | zero => exact ⟨_, rfl⟩
  | succ count ih =>
    cases input with
    | nil => exact ⟨_, readOps_nil _⟩
    | cons op_type rest =>
      rw [readOps_cons]
      split
      · obtain ⟨result, read⟩ := ih rest
        exact ⟨_, bind_eq_ok.mpr ⟨_, _, read, rfl⟩⟩
      · split
        · rename_i known
          obtain ⟨result, read⟩ := ih (rest.drop 4)
          have isId : read_int rest = .ok (int (ofBytes (rest.take 4)), rest.drop 4) := by
            refine bind_eq_ok.mpr ⟨_, _, bind_eq_ok.mpr ⟨_, _, ?_, rfl⟩, rfl⟩
            exact if_pos known.2
          exact ⟨_, bind_eq_ok.mpr ⟨_, _, isId, bind_eq_ok.mpr ⟨_, _, read, rfl⟩⟩⟩
        · exact ⟨_, rfl⟩

variable {input : List Byte}

theorem read_int_of_le (enough : 4 ≤ input.length) :
    read_int input = .ok (int (ofBytes (input.take 4)), input.drop 4) :=
  bind_eq_ok.mpr ⟨_, _, bind_eq_ok.mpr ⟨_, _, if_pos enough, rfl⟩, rfl⟩

theorem many_int_succeeds (count : Nat) {input : List Byte} (enough : input.length = count * 4) :
    ∃ result, many read_int count input = .ok result := by
  induction count generalizing input with
  | zero => exact ⟨_, rfl⟩
  | succ count ih =>
    obtain ⟨result, read⟩ := @ih (input.drop 4) (by
      rw [length_drop]
      omega)
    exact ⟨_, bind_eq_ok.mpr ⟨_, _, read_int_of_le (by omega), bind_eq_ok.mpr ⟨_, _, read, rfl⟩⟩⟩

theorem postProcessor_succeeds_iff :
    (∃ result, readPostProcessor input = .ok result) ↔ 2 ≤ input.length := by
  constructor
  · rintro ⟨result, read⟩
    obtain ⟨count, rest, isCount, -⟩ := bind_eq_ok.mp read
    obtain ⟨rfl, -⟩ := number_eq_ok.mp isCount
    rw [length_append, length_toBytes]
    omega
  · intro enough
    have isCount : read_u16 input = .ok (ofBytes (input.take 2), input.drop 2) :=
      bind_eq_ok.mpr ⟨_, _, if_pos enough, rfl⟩
    obtain ⟨same, few⟩ := number_eq_ok.mp isCount
    rw [same, readPostProcessor_eq few]
    split
    · rename_i old
      obtain ⟨result, read⟩ := many_int_succeeds _ old
      exact ⟨_, bind_eq_ok.mpr ⟨_, _, read, rfl⟩⟩
    · exact readOps_succeeds _ _

theorem strSection_iff {behind : List Byte → Prop} (empty : behind []) {input : List Byte} :
    (∃ s rest, optionalSection [] read_str input = .ok (s, rest) ∧ behind rest) ↔
      input = [] ∨ ∃ bytes s rest, StrBytes bytes s ∧ behind rest ∧ input = bytes ++ rest := by
  rw [optionalSection_eq]
  by_cases none : input = []
  · simp only [none, if_true, true_or, iff_true]
    exact ⟨[], [], rfl, empty⟩
  · simp only [none, if_false, false_or, reads_str _ _ _]
    constructor
    · rintro ⟨s, rest, ⟨bytes, same, isStr⟩, holds⟩
      exact ⟨bytes, s, rest, isStr, holds, same⟩
    · rintro ⟨bytes, s, rest, isStr, holds, same⟩
      exact ⟨s, rest, ⟨bytes, same, isStr⟩, holds⟩

theorem flagsSection_iff :
    (∃ flags rest, readFlags input = .ok (flags, rest) ∧ BosSection rest) ↔ FlagsSection input := by
  unfold readFlags FlagsSection
  rw [optionalSection_eq]
  by_cases none : input = []
  · simp only [none, if_true, true_or, iff_true]
    exact ⟨false, [], rfl, Or.inl rfl⟩
  · simp only [none, if_false, false_or, read_u8, bind_eq_ok, byte_eq_ok, pure_eq_ok]
    constructor
    · rintro ⟨_, rest, ⟨flags, _, rfl, rfl, rfl⟩, holds⟩
      exact ⟨flags, _, holds, rfl⟩
    · rintro ⟨flags, rest, holds, rfl⟩
      exact ⟨_, rest, ⟨flags, rest, rfl, rfl, rfl⟩, holds⟩

theorem templateSection_iff :
    (∃ texts rest, readTemplate input = .ok (texts, rest) ∧ FlagsSection rest) ↔
      TemplateSection input := by
  unfold readTemplate TemplateSection
  rw [optionalSection_eq]
  by_cases none : input = []
  · simp only [none, if_true, true_or, iff_true]
    exact ⟨_, [], rfl, Or.inl rfl⟩
  · have eos (input : List Byte) := @strSection_iff FlagsSection (Or.inl rfl) input
    simp only [none, if_false, false_or, read_u32, bind_eq_ok, number_eq_ok,
      block_eq_ok, pure_eq_ok]
    constructor
    · rintro ⟨_, rest, ⟨_, _, ⟨rfl, few⟩, tpl, mid, ⟨rfl, rfl⟩, s, _, read, rfl, rfl⟩, holds⟩
      exact ⟨tpl, mid, few, (eos mid).mp ⟨s, _, read, holds⟩, rfl⟩
    · rintro ⟨tpl, mid, few, holds, rfl⟩
      obtain ⟨s, rest, read, holds⟩ := (eos mid).mpr holds
      exact ⟨_, rest, ⟨_, _, ⟨rfl, few⟩, tpl, mid, ⟨rfl, rfl⟩, s, rest, read, rfl,
        rfl⟩, holds⟩

theorem sections_succeed_iff (tokenizer : PipelineTokenizer) {input : List Byte} :
    (∃ result, readSections tokenizer input = .ok result) ↔ TemplateSection input := by
  have program (input : List Byte) :
      (∃ ops rest, optionalSection [] readPostProcessor input = .ok (ops, rest)) ↔
        PostProcessorSection input := by
    unfold PostProcessorSection
    rw [optionalSection_eq, ← postProcessor_succeeds_iff]
    by_cases none : input = []
    · simp only [none, if_true, true_or, iff_true]
      exact ⟨_, _, rfl⟩
    · simp only [none, if_false, false_or, Prod.exists]
  have bos (input : List Byte) := @strSection_iff PostProcessorSection (Or.inl rfl) input
  rw [← templateSection_iff]
  constructor
  · rintro ⟨result, read⟩
    obtain ⟨texts, rest, template, read⟩ := bind_eq_ok.mp read
    obtain ⟨flags, rest', isFlags, read⟩ := bind_eq_ok.mp read
    obtain ⟨bos_, rest'', isBos, read⟩ := bind_eq_ok.mp read
    obtain ⟨ops, _, isProgram, -⟩ := bind_eq_ok.mp read
    exact ⟨texts, rest, template, flagsSection_iff.mp ⟨flags, rest', isFlags,
      (bos rest').mp ⟨bos_, rest'', isBos, (program rest'').mp ⟨ops, _, isProgram⟩⟩⟩⟩
  · rintro ⟨texts, rest, template, holds⟩
    obtain ⟨flags, rest', isFlags, holds⟩ := flagsSection_iff.mpr holds
    obtain ⟨bos_, rest'', isBos, holds⟩ := (bos rest').mpr holds
    obtain ⟨ops, _, isProgram⟩ := (program rest'').mpr holds
    exact ⟨_, bind_eq_ok.mpr ⟨texts, rest, template, bind_eq_ok.mpr ⟨flags, rest',
      isFlags, bind_eq_ok.mpr ⟨bos_, rest'', isBos, bind_eq_ok.mpr ⟨ops, _, isProgram,
        rfl⟩⟩⟩⟩⟩

/-! ## The whole file -/

def TokenizerModel.id_to_token : TokenizerModel → List Text
  | .bpe id_to_token _ _ _ => id_to_token
  | .wordPiece _ _ _ id_to_token _ => id_to_token
  | .unigram _ _ id_to_token _ _ => id_to_token

def TokenizerModel.sorted_vocab : TokenizerModel → List VocabEntry
  | .bpe _ sorted_vocab _ _ => sorted_vocab
  | .wordPiece _ _ _ _ sorted_vocab => sorted_vocab
  | .unigram _ _ _ _ sorted_vocab => sorted_vocab

/--
No byte behind the end is read, the readers come to an end, and false is returned
unless there is a model whose ids are indices.
-/
def Total (input : List Byte) : Prop :=
  load_vocab_binary input = .error .reject ∨
    ∃ tokenizer rest, load_vocab_binary input = .ok (tokenizer, rest) ∧
      ∃ model, tokenizer.model_ = some model ∧
        ∀ entry ∈ model.sorted_vocab, InRange model.id_to_token.length entry.2

/-- Bytes that are complete, or refused at an id. -/
inductive Complete : List Byte → Prop
  | refused {normalizer preTokenizer model rest : List Byte}
      {normalizer_ : Option Normalizer} {pre_tokenizer_ : Option PreTokenizer}
      (type : Byte) {vocab_size : Nat} :
      TreeBytes 4 (fun type => NormalizerBytes type.toNat) normalizer normalizer_ →
        TreeBytes 6 (fun type => PreTokenizerBytes type.toNat) preTokenizer pre_tokenizer_ →
          vocab_size < 256 ^ 4 → ModelRefused type.toNat vocab_size model → Complete
              (normalizer ++ (preTokenizer ++ (type :: (toBytes 4 vocab_size ++ (model ++ rest)))))
  | complete {normalizer preTokenizer model decoder added sections : List Byte}
      {normalizer_ : Option Normalizer} {pre_tokenizer_ : Option PreTokenizer}
      (type : Byte) {vocab_size : Nat} {model_ : TokenizerModel}
      {decoder_ : Option TokenDecoder} {added_tokens_ : List AddedToken} :
      TreeBytes 4 (fun type => NormalizerBytes type.toNat) normalizer normalizer_ →
        TreeBytes 6 (fun type => PreTokenizerBytes type.toNat) preTokenizer pre_tokenizer_ →
          vocab_size < 256 ^ 4 → ModelBytes type.toNat vocab_size model (some model_) →
              TreeBytes 7 (fun type => DecoderBytes type.toNat) decoder decoder_ →
                AddedTokensBytes added added_tokens_ → TemplateSection sections → Complete
                      (normalizer ++ (preTokenizer ++ (type :: (toBytes 4 vocab_size ++ (model ++
                          (decoder ++ (added ++ sections)))))))

@[simp]
theorem length_fillIds {α : Type} (empty : α) (vocab_size : Nat) (entries : List (Int × α)) :
    (fillIds empty vocab_size entries).length = vocab_size := by
  unfold fillIds
  generalize isTable : List.replicate vocab_size empty = table
  have length : table.length = vocab_size := by
    rw [← isTable, length_replicate]
  clear isTable
  induction entries generalizing table with
  | nil => exact length
  | cons entry entries ih =>
    exact ih _ (by rw [length_set, length])

theorem ModelBytes.inRange {type vocab_size : Nat} {bytes : List Byte} {model : TokenizerModel}
    (derived : ModelBytes type vocab_size bytes (some model)) :
    ∀ entry ∈ model.sorted_vocab, InRange model.id_to_token.length entry.2 := by
  intro entry member
  cases derived with
  | bpe _ _ _ isEntries _ =>
    obtain ⟨_, -, inRange⟩ := isEntries.exists entry member
    exact (length_fillIds ..).symm ▸ inRange
  | wordPiece _ _ _ isEntries =>
    obtain ⟨_, -, inRange⟩ := isEntries.exists entry member
    exact (length_fillIds ..).symm ▸ inRange
  | unigram _ _ isEntries =>
    obtain ⟨scored, isScored, rfl⟩ := mem_map.mp member
    obtain ⟨_, -, inRange⟩ := isEntries.exists scored isScored
    exact (length_fillIds ..).symm ▸ inRange

theorem load_eq_reject :
    load_vocab_binary input = .error .reject ↔
      ∃ normalizer_ pre_tokenizer_ normalizer preTokenizer model rest,
        ∃ (type : Byte) (vocab_size : Nat),
          TreeBytes 4 (fun type => NormalizerBytes type.toNat) normalizer normalizer_ ∧
            TreeBytes 6 (fun type => PreTokenizerBytes type.toNat) preTokenizer pre_tokenizer_ ∧
              vocab_size < 256 ^ 4 ∧ ModelRefused type.toNat vocab_size model ∧
                input = normalizer ++ (preTokenizer ++
                  (type :: (toBytes 4 vocab_size ++ (model ++ rest)))) := by
  unfold load_vocab_binary readModel read_u8 read_u32
  simp only [bind_eq_error, plain_normalizer_bin.ne_reject,
    plain_pre_tokenizer_bin.ne_reject, plain_decoder_bin.ne_reject,
    plain_addedTokens.ne_reject, (plain_sections _).ne_reject,
    Plain.byte.ne_reject, (Plain.number 4).ne_reject, byte_eq_ok, number_eq_ok,
    rejects_modelBody _ _ _, reads_normalizer_bin _ _ _,
    reads_pre_tokenizer_bin _ _ _, false_or, or_false, and_false, exists_false]
  constructor
  · rintro ⟨normalizer_, _, ⟨normalizer, rfl, isNormalizer⟩, pre_tokenizer_, _,
      ⟨preTokenizer, rfl, isPreTokenizer⟩, type, _, rfl, vocab_size, _, ⟨rfl, few⟩,
      model, rest, rfl, refused⟩
    exact ⟨normalizer_, pre_tokenizer_, normalizer, preTokenizer, model, rest, type,
      vocab_size, isNormalizer, isPreTokenizer, few, refused, rfl⟩
  · rintro ⟨normalizer_, pre_tokenizer_, normalizer, preTokenizer, model, rest, type,
      vocab_size, isNormalizer, isPreTokenizer, few, refused, rfl⟩
    exact ⟨normalizer_, _, ⟨normalizer, rfl, isNormalizer⟩, pre_tokenizer_, _,
      ⟨preTokenizer, rfl, isPreTokenizer⟩, type, _, rfl, vocab_size, _, ⟨rfl, few⟩,
      model, rest, rfl, refused⟩

/-- A file whose components are complete is loaded, whatever its sections are. -/
theorem load_eq_sections :
    load_vocab_binary input = .ok result ↔
      ∃ normalizer_ pre_tokenizer_ model_ decoder_ added_tokens_,
        ∃ normalizer preTokenizer model decoder added sections : List Byte,
          ∃ (type : Byte) (vocab_size : Nat),
            TreeBytes 4 (fun type => NormalizerBytes type.toNat) normalizer normalizer_ ∧
              TreeBytes 6 (fun type => PreTokenizerBytes type.toNat) preTokenizer pre_tokenizer_ ∧
                vocab_size < 256 ^ 4 ∧ ModelBytes type.toNat vocab_size model model_ ∧
                    TreeBytes 7 (fun type => DecoderBytes type.toNat) decoder decoder_ ∧
                      AddedTokensBytes added added_tokens_ ∧ input = normalizer ++ (preTokenizer ++
                          (type :: (toBytes 4 vocab_size ++ (model ++
                            (decoder ++ (added ++ sections)))))) ∧
                          readSections
                              { normalizer_, pre_tokenizer_, model_, decoder_,
                                added_tokens_ }
                              sections =
                            .ok result := by
  unfold load_vocab_binary readModel read_u8 read_u32
  simp only [bind_eq_ok, byte_eq_ok, number_eq_ok, reads_normalizer_bin _ _ _,
    reads_pre_tokenizer_bin _ _ _, reads_modelBody _ _ _ _ _,
    reads_decoder_bin _ _ _, reads_addedTokens _ _ _]
  constructor
  · rintro ⟨normalizer_, _, ⟨normalizer, rfl, isNormalizer⟩, pre_tokenizer_, _,
      ⟨preTokenizer, rfl, isPreTokenizer⟩, model_, _, ⟨type, _, rfl, vocab_size, _,
      ⟨rfl, few⟩, model, rfl, isModel⟩, decoder_, _, ⟨decoder, rfl, isDecoder⟩,
      added_tokens_, sections, ⟨added, rfl, isAdded⟩, read⟩
    exact ⟨normalizer_, pre_tokenizer_, model_, decoder_, added_tokens_, normalizer,
      preTokenizer, model, decoder, added, sections, type, vocab_size, isNormalizer,
      isPreTokenizer, few, isModel, isDecoder, isAdded, rfl, read⟩
  · rintro ⟨normalizer_, pre_tokenizer_, model_, decoder_, added_tokens_, normalizer,
      preTokenizer, model, decoder, added, sections, type, vocab_size, isNormalizer,
      isPreTokenizer, few, isModel, isDecoder, isAdded, rfl, read⟩
    exact ⟨normalizer_, _, ⟨normalizer, rfl, isNormalizer⟩, pre_tokenizer_, _,
      ⟨preTokenizer, rfl, isPreTokenizer⟩, model_, _, ⟨type, _, rfl, vocab_size, _,
      ⟨rfl, few⟩, model, rfl, isModel⟩, decoder_, _, ⟨decoder, rfl, isDecoder⟩,
      added_tokens_, sections, ⟨added, rfl, isAdded⟩, read⟩

theorem readSections_model {tokenizer : PipelineTokenizer} {input : List Byte}
    (read : readSections tokenizer input = .ok result) :
    result.1.model_ = tokenizer.model_ := by
  obtain ⟨_, _, -, read⟩ := bind_eq_ok.mp read
  obtain ⟨_, _, -, read⟩ := bind_eq_ok.mp read
  obtain ⟨_, _, -, read⟩ := bind_eq_ok.mp read
  obtain ⟨_, _, -, read⟩ := bind_eq_ok.mp read
  obtain ⟨same, -⟩ := pure_eq_ok.mp read
  rw [same]

/-- What the reader makes of any bytes is as it should be just for these. -/
theorem total_iff (input : List Byte) : Total input ↔ Complete input := by
  constructor
  · rintro (rejects | ⟨tokenizer, rest, loads, model, isModel_, -⟩)
    · obtain ⟨_, _, _, _, _, _, type, _, isNormalizer, isPreTokenizer, few, refused,
        rfl⟩ := load_eq_reject.mp rejects
      exact .refused type isNormalizer isPreTokenizer few refused
    · obtain ⟨_, _, _, _, _, _, _, _, _, _, _, type, _, isNormalizer, isPreTokenizer,
        few, isModel, isDecoder, isAdded, rfl, read⟩ := load_eq_sections.mp loads
      obtain rfl := (readSections_model read).symm.trans isModel_
      exact .complete type isNormalizer isPreTokenizer few isModel isDecoder isAdded
        ((sections_succeed_iff _).mp ⟨_, read⟩)
  · rintro (⟨type, isNormalizer, isPreTokenizer, few, refused⟩ |
      ⟨type, isNormalizer, isPreTokenizer, few, isModel, isDecoder, isAdded, sections⟩)
    · exact Or.inl (load_eq_reject.mpr ⟨_, _, _, _, _, _, type, _, isNormalizer,
        isPreTokenizer, few, refused, rfl⟩)
    · obtain ⟨⟨tokenizer, rest⟩, read⟩ := (sections_succeed_iff _).mpr sections
      refine Or.inr ⟨tokenizer, rest, load_eq_sections.mpr ⟨_, _, _, _, _, _, _, _, _,
        _, _, type, _, isNormalizer, isPreTokenizer, few, isModel, isDecoder, isAdded,
        rfl, read⟩, _, readSections_model read, isModel.inRange⟩

/-- An empty body is read behind its end; with a model of type 3 there is none. -/
theorem not_total : ¬Total [] ∧ ¬Total [0, 0, 3, 0, 0, 0, 0, 0, 0, 0, 0, 0] := by
  constructor
  · rintro (rejects | ⟨_, _, loads, -⟩)
    · nomatch rejects
    · nomatch loads
  · rintro (rejects | ⟨_, _, loads, _, isModel_, -⟩)
    · nomatch rejects
    · have tokenizer := congrArg (fun result => result.toOption.map fun read =>
        read.1.model_) loads
      rw [Except.toOption, Option.map_some, isModel_] at tokenizer
      nomatch tokenizer

end Mnn.Mtok
