import Mnn.Foundation.Cutting
import Mnn.Llm.PipelineDecode

/-!
# Decoding token by token

With a byte-level decoder the text of each token is decoded alone, so that the texts
of single ids make up the text of all ids, but for what a single id replaces first.
What is replaced becomes shorter, so that nothing can make up for it.
-/

variable {t t' v v' : Text}

namespace Mnn.Mtok.PipelineTokenizer

open Mnn.Foundation BitFields ByteReader Cutting PairCodes Utf8
open List

/-! ## Markers -/

/-- What the loop for a single id replaces. -/
def MarkerAt (t : Text) : Prop :=
  metaspaceMarker <+: t ∨ 6 ≤ t.length ∧ byteMarker <+: t ∧ (scanHex (t.drop 3)).isSome

/-- Somewhere in the string there is `▁`, or `<0x` in front of a number. -/
def HasMarker (token : Text) : Prop := ∃ t, t <:+ token ∧ MarkerAt t

theorem hasMarker_cons {c : Byte} {rest : Text} :
    HasMarker (c :: rest) ↔ MarkerAt (c :: rest) ∨ HasMarker rest := by
  unfold HasMarker
  simp only [suffix_cons_iff, or_and_right, exists_or, exists_eq_left]

theorem not_hasMarker_nil : ¬HasMarker [] := by
  rintro ⟨t, isSuffix, marker⟩
  obtain rfl := suffix_nil.mp isSuffix
  rcases marker with isPrefix | ⟨long, -⟩
  · exact absurd isPrefix (by decide)
  · exact absurd long (by decide)

/-- What becomes of a string whose markers are replaced. -/
inductive Replaced (t t' : Text) : Prop
  | same : ¬HasMarker t → t' = t → Replaced t t'
  | shorter : HasMarker t → Shrinks bytePair t t' → Replaced t t'

theorem Replaced.length_le (replaced : Replaced t t') :
    (decodePairs bytePair t').length ≤ (decodePairs bytePair t).length := by
  cases replaced with
  | same _ same => exact le_of_eq (by rw [same])
  | shorter _ shrinks => exact le_of_lt shrinks.1

theorem Replaced.cons (replaced : Replaced t t') {c : Byte}
    (noMarker : ¬MarkerAt (c :: t)) : Replaced (c :: t) (c :: t') := by
  cases replaced with
  | same none same =>
    refine .same ?_ (by rw [same])
    rw [hasMarker_cons]
    exact not_or.mpr ⟨noMarker, none⟩
  | shorter marker shrinks =>
    exact .shorter (hasMarker_cons.mpr (Or.inr marker)) (shrinks.cons c)

/-- A blank stands for itself, as do the three bytes it is put for. -/
theorem replaced_metaspace (replaced : Replaced v v') :
    Replaced (metaspaceMarker ++ v) (0x20 :: v') := by
  refine .shorter ⟨_, suffix_refl _, Or.inl (prefix_append ..)⟩ (.of_length separated_bytePair ?_)
  show (decodePairs bytePair (0x20 :: v')).length + 2 ≤
    (decodePairs bytePair (0xE2 :: 0x96 :: 0x81 :: v)).length
  rw [(single_of_not_lead (by decide)).decodePairs_cons,
    (single_of_not_lead (by decide)).decodePairs_cons,
    (single_of_not_lead (by decide)).decodePairs_cons,
    (single_of_not_lead (by decide)).decodePairs_cons]
  have le := replaced.length_le
  simp only [length_cons]
  omega

theorem replaced_byte {a b c byte : Byte}
    (isByte : (scanHex (a :: b :: c :: v)).isSome) (replaced : Replaced v v') :
    Replaced (byteMarker ++ a :: b :: c :: v) (byte :: v') := by
  refine .shorter ⟨_, suffix_refl _,
    Or.inr ⟨?_, prefix_append .., isByte⟩⟩ (.of_length separated_bytePair ?_)
  · show 6 ≤ v.length + 6
    exact Nat.le_add_left ..
  show (decodePairs bytePair (byte :: v')).length + 2 ≤
    (decodePairs bytePair (0x3C :: 0x30 :: 0x78 :: a :: b :: c :: v)).length
  have le := replaced.length_le
  have front := length_decodePairs_cons_le separated_bytePair byte v'
  have last := length_le_length_decodePairs_cons separated_bytePair c v
  have two := length_lt_length_decodePairs_cons_cons separated_bytePair a b (c :: v)
  have single3C : Single bytePair 0x3C := single_of_not_lead (by decide)
  have single30 : Single bytePair 0x30 := single_of_not_lead (by decide)
  have single78 : Single bytePair 0x78 := single_of_not_lead (by decide)
  rw [single3C.decodePairs_cons, single30.decodePairs_cons, single78.decodePairs_cons]
  simp only [length_cons]
  omega

theorem replaced_replaceMarkersFuel {fuel : Nat}
    (enough : t.length ≤ fuel) : Replaced t (replaceMarkersFuel fuel t) := by
  induction fuel generalizing t with
  | zero =>
    obtain rfl := length_eq_zero_iff.mp (Nat.le_zero.mp enough)
    exact .same not_hasMarker_nil rfl
  | succ fuel ih =>
    cases t with
    | nil => exact .same not_hasMarker_nil rfl
    | cons c rest =>
      rw [length_cons] at enough
      have copied := @ih rest (Nat.le_of_succ_le_succ enough)
      unfold replaceMarkersFuel
      split
      · rename_i isPrefix
        obtain ⟨v, same⟩ := isPrefixOf_iff_prefix.mp isPrefix
        have length := congrArg List.length same
        rw [length_append, length_cons] at length
        have isDrop : (c :: rest).drop 3 = v := by
          rw [← same]
          rfl
        rw [isDrop, ← same]
        refine replaced_metaspace (ih ?_)
        have : metaspaceMarker.length = 3 := rfl
        omega
      · rename_i notPrefix
        have notMetaspace : ¬metaspaceMarker <+: c :: rest := fun isPrefix =>
          notPrefix ( isPrefixOf_iff_prefix.mpr isPrefix)
        split
        · rename_i begins
          obtain ⟨long, isPrefix⟩ := begins
          split
          · rename_i byte isByte
            obtain ⟨v, same⟩ := isPrefixOf_iff_prefix.mp isPrefix
            have length := congrArg List.length same
            rw [length_append, length_cons] at length
            have three : byteMarker.length = 3 := rfl
            match v, same, length with
            | [], _, length | [_], _, length | [_, _], _, length =>
              simp only [length_cons, length_nil] at length long
              omega
            | a :: b :: c' :: v, same, length =>
              rw [← same] at isByte ⊢
              refine replaced_byte (Option.isSome_iff_exists.mpr ⟨byte, isByte⟩) (ih ?_)
              simp only [length_cons] at length
              omega
          · rename_i noByte
            refine copied.cons ?_
            rintro (impossible | ⟨-, -, isSome⟩)
            · exact notMetaspace impossible
            · rw [noByte] at isSome
              nomatch isSome
        · rename_i noBegin
          refine copied.cons ?_
          rintro (impossible | ⟨long, isPrefix, -⟩)
          · exact notMetaspace impossible
          · exact noBegin ⟨long, isPrefixOf_iff_prefix.mpr isPrefix⟩

/-- Without a marker the strings are decoded alike; with one they are not. -/
theorem decodeCharacters_replaceMarkers_iff (token : Text) :
    decodeCharacters (replaceMarkers token) = decodeCharacters token ↔ ¬HasMarker token := by
  rw [decodeCharacters_eq, decodeCharacters_eq]
  cases replaced_replaceMarkersFuel (le_refl token.length) with
  | same none same => exact iff_of_true (congrArg _ same) none
  | shorter marker shrinks =>
    refine iff_of_false (fun same => ?_) (not_not_intro marker)
    exact absurd (congrArg List.length same) (ne_of_lt shrinks.1)

theorem length_decodeCharacters_replaceMarkers (token : Text) :
    (decodeCharacters (replaceMarkers token)).length ≤ (decodeCharacters token).length := by
  rw [decodeCharacters_eq, decodeCharacters_eq]
  cases replaced_replaceMarkersFuel (le_refl token.length) with
  | same _ same => exact (congrArg List.length (congrArg _ same)).le
  | shorter _ shrinks => exact shrinks.1.le

/-! ## All ids -/

section ByteLevel

variable {tokenizer : PipelineTokenizer} {model : TokenizerModel}

section

variable (isModel : tokenizer.model_ = some model)
  (isDecoder : tokenizer.decoder_ = some (.leaf .byteLevel))

include isModel isDecoder

theorem decode_byteLevel (id : Int) :
    tokenizer.decode id = decodeCharacters (replaceMarkers (model.idToToken id)) := by
  have leaves : tokenizer.decoderLeaves = [.byteLevel] := by
    rw [decoderLeaves, isDecoder]
    rfl
  rw [decode, isModel, wordpiece_prefix_, byte_level_, leaves]
  rfl

theorem decodeAll_byteLevel (notCleaned : tokenizer.clean_up_spaces_ = false)
    {special_tokens_ ids : List Int} (notSpecial : ∀ id ∈ ids, id ∉ special_tokens_) :
    tokenizer.decodeAll special_tokens_ ids =
      some (ids.flatMap fun id => decodeCharacters (model.idToToken id)) := by
  have leaves : tokenizer.decoderLeaves = [.byteLevel] := by
    rw [decoderLeaves, isDecoder]
    rfl
  have kept : (ids.filter fun id => !special_tokens_.contains id) = ids := by
    rw [filter_eq_self]
    intro id member
    rw [Bool.not_eq_true', contains_eq_mem, decide_eq_false_iff_not]
    exact notSpecial id member
  rw [decodeAll, isModel, wordpiece_prefix_, isDecoder, notCleaned, leaves, kept]
  show some ((ids.map model.idToToken).map decodeCharacters).flatten = _
  rw [map_map, ← flatMap_def]
  rfl

end

/--
The texts of single ids make up the text of all ids just if no string of these ids
has a marker.
-/
theorem decode_streaming_iff (tokenizer : PipelineTokenizer) (model : TokenizerModel)
    (special_tokens_ ids : List Int) (isModel : tokenizer.model_ = some model)
    (isDecoder : tokenizer.decoder_ = some (.leaf .byteLevel))
    (notCleaned : tokenizer.clean_up_spaces_ = false)
    (notSpecial : ∀ id ∈ ids, id ∉ special_tokens_) :
    tokenizer.decodeAll special_tokens_ ids = some (ids.flatMap tokenizer.decode) ↔
      ∀ id ∈ ids, ¬HasMarker (model.idToToken id) := by
  rw [decodeAll_byteLevel isModel isDecoder notCleaned notSpecial, Option.some.injEq,
    eq_comm, funext (decode_byteLevel isModel isDecoder)]
  rw [flatMap_eq_iff_of_length_le fun id _ =>
    length_decodeCharacters_replaceMarkers (model.idToToken id)]
  simp only [decodeCharacters_replaceMarkers_iff]

end ByteLevel

/-- A tokenizer with a character of a byte and a string that looks like a byte. -/
def sampleTokenizer : PipelineTokenizer where
  normalizer_ := none
  pre_tokenizer_ := some (.leaf (.byteLevel true))
  model_ := some (.bpe [[0xC4, 0xA0], [0x3C, 0x30, 0x78, 0x34, 0x31, 0x3E]] [
    ([0x3C, 0x30, 0x78, 0x34, 0x31, 0x3E], 1), ([0xC4, 0xA0], 0)] [] false)
  decoder_ := some (.leaf .byteLevel)
  added_tokens_ := []

theorem decode_streaming_sample :
    sampleTokenizer.decodeAll [] [0, 0] =
      some ([0, 0].flatMap sampleTokenizer.decode) :=
  (decode_streaming_iff sampleTokenizer _ [] [0, 0] rfl rfl rfl fun _ _ => not_mem_nil).mpr (by
      intro id member marker
      have isZero : id = 0 := by
        rcases mem_cons.mp member with same | member
        · exact same
        · exact mem_singleton.mp member
      subst isZero
      rcases hasMarker_cons.mp marker with at0 | marker
      · rcases at0 with isPrefix | ⟨long, -⟩
        · exact absurd isPrefix (by decide)
        · exact absurd long (by decide)
      · rcases hasMarker_cons.mp marker with at1 | marker
        · rcases at1 with isPrefix | ⟨long, -⟩
          · exact absurd isPrefix (by decide)
          · exact absurd long (by decide)
        · exact not_hasMarker_nil marker)

/-- The string `<0x41>` is streamed as `A`, and kept when it is decoded with others. -/
theorem not_decode_streaming : ¬∀ (tokenizer : PipelineTokenizer) (model : TokenizerModel)
      (special_tokens_ ids : List Int), tokenizer.model_ = some model →
        tokenizer.decoder_ = some (.leaf .byteLevel) → tokenizer.clean_up_spaces_ = false →
            (∀ id ∈ ids, id ∉ special_tokens_) → tokenizer.decodeAll special_tokens_ ids =
                some (ids.flatMap tokenizer.decode) := by
  intro streams
  have same := streams sampleTokenizer _ [] [1] rfl rfl rfl fun _ _ => not_mem_nil
  exact absurd same (by decide +kernel)

end Mnn.Mtok.PipelineTokenizer
