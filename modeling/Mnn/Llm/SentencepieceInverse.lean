import Mnn.Foundation.Cutting
import Mnn.Llm.SentencepieceDecode

/-!
# Which texts are decoded to themselves

The pieces are cut between the characters of the text, so that restoring them one by
one restores the text.  Decoding restores a piece if and only if it is known and has
its marker at an edge.
-/

namespace Mnn.Llm

open Mnn.Foundation.Cutting
open Mnn.Foundation.Occurrences
open Mnn.Foundation.PairMerging
open List
open Nat

variable {c w : List Byte} {chars pieces : List (List Byte)}

namespace Sentencepiece

/-! ## Characters of a text -/

section Characters

/-- A byte behind the first one of a character. -/
def Continues (b : Byte) : Prop := b &&& 0xC0 = 0x80

instance (b : Byte) : Decidable (Continues b) :=
  inferInstanceAs (Decidable (_ = _))

/-- A first byte, and as many others as it asks for. -/
inductive Utf8Char : List Byte → Prop
  | mk {lead : Byte} {others : List Byte} (first : ¬Continues lead)
      (length : others.length + 1 = one_char_len lead)
      (follow : ∀ b ∈ others, Continues b) : Utf8Char (lead :: others)

theorem utf8Char_utf8EncodeChar (c : Char) : Utf8Char (String.utf8EncodeChar c) := by
  have follows (n : Nat) : Continues (UInt8.ofNat (n % 0x40 + 0x80)) :=
    have all : ∀ low < 0x40, Continues (UInt8.ofNat (low + 0x80)) := by decide
    all _ (mod_lt _ (by decide))
  have one : ∀ lead < 0x80, ¬Continues (UInt8.ofNat lead) ∧
      one_char_len (UInt8.ofNat lead) = 1 := by decide
  have two : ∀ high < 0x20, ¬Continues (UInt8.ofNat (high + 0xC0)) ∧
      one_char_len (UInt8.ofNat (high + 0xC0)) = 2 := by decide
  have three : ∀ high < 0x10, ¬Continues (UInt8.ofNat (high + 0xE0)) ∧
      one_char_len (UInt8.ofNat (high + 0xE0)) = 3 := by decide
  have four : ∀ high < 0x08, ¬Continues (UInt8.ofNat (high + 0xF0)) ∧
      one_char_len (UInt8.ofNat (high + 0xF0)) = 4 := by decide
  have none : ∀ b ∈ ([] : List Byte), Continues b := forall_mem_nil _
  rw [String.utf8EncodeChar]
  split
  · rename_i ascii
    obtain ⟨first, length⟩ := one c.val.toNat (by omega)
    exact .mk first length.symm none
  split
  · obtain ⟨first, length⟩ := two _ (mod_lt (c.val.toNat / 64) (by decide))
    exact .mk first length.symm (forall_mem_cons.mpr ⟨follows _, none⟩)
  split
  · obtain ⟨first, length⟩ := three _ (mod_lt (c.val.toNat / 4096) (by decide))
    exact .mk first length.symm
      (forall_mem_cons.mpr ⟨follows _, forall_mem_cons.mpr ⟨follows _, none⟩⟩)
  · obtain ⟨first, length⟩ := four _ (mod_lt (c.val.toNat / 262144) (by decide))
    exact .mk first length.symm (forall_mem_cons.mpr ⟨follows _,
        forall_mem_cons.mpr ⟨follows _, forall_mem_cons.mpr ⟨follows _, none⟩⟩⟩)

theorem Utf8Char.ne_nil (isChar : Utf8Char c) : c ≠ [] := by
  cases isChar
  exact cons_ne_nil _ _

theorem utf8Char_marker : Utf8Char marker := .mk (by decide) rfl (by decide +kernel)

theorem characters_flatten (areChars : ∀ c ∈ chars, Utf8Char c)
    {fuel : Nat} (enough : chars.length ≤ fuel) : characters fuel chars.flatten = chars := by
  induction chars generalizing fuel with
  | nil => cases fuel <;> rfl
  | cons c chars ih =>
    cases fuel with
    | zero => exact absurd enough (not_succ_le_zero _)
    | succ fuel =>
      have later := ih (fun d isMem => areChars d (mem_cons_of_mem _ isMem))
        (le_of_succ_le_succ enough)
      cases areChars c mem_cons_self with
      | @mk lead others _ length _ =>
        have size : (lead :: others).length = one_char_len lead := length
        rw [flatten_cons, cons_append, characters, ← cons_append, ← size,
          take_left, drop_left, later]

/-- A text of whole characters. -/
def Aligned (w : List Byte) : Prop :=
  ∃ chars : List (List Byte), (∀ c ∈ chars, Utf8Char c) ∧ w = chars.flatten

theorem Utf8Char.aligned (isChar : Utf8Char c) : Aligned c := ⟨[c], by simpa using isChar, by simp⟩

theorem Aligned.append {a b : List Byte} (isA : Aligned a) (isB : Aligned b) :
    Aligned (a ++ b) := by
  obtain ⟨first, areFirst, rfl⟩ := isA
  obtain ⟨second, areSecond, rfl⟩ := isB
  refine ⟨first ++ second, fun c isMem => ?_, flatten_append.symm⟩
  rcases mem_append.mp isMem with isFirst | isSecond
  · exact areFirst c isFirst
  · exact areSecond c isSecond

theorem restore_follow {others : List Byte} (follow : ∀ b ∈ others, Continues b) :
    restore (others ++ w) = others ++ restore w := by
  induction others with
  | nil => rfl
  | cons b others ih =>
    have notMarker : ¬marker <+: b :: (others ++ w) := by
      rintro ⟨rest, isRest⟩
      have isLead : b = 0xE2 := (List.cons.inj isRest).1.symm
      have isFollow := follow b mem_cons_self
      rw [isLead] at isFollow
      cases isFollow
    rw [cons_append, restore_cons notMarker,
      ih fun d isMem => follow d (mem_cons_of_mem _ isMem), cons_append]

theorem restore_char (isChar : Utf8Char c) :
    restore (c ++ w) = (if c = marker then [0x20] else c) ++ restore w := by
  by_cases isMarker : c = marker
  · subst isMarker
    rw [restore_marker, if_pos rfl]
    rfl
  · rw [if_neg isMarker]
    cases isChar with
    | @mk lead others _ length follow =>
      have notMarker : ¬marker <+: lead :: (others ++ w) := by
        intro isPrefix
        have isLead : lead = 0xE2 := by
          obtain ⟨rest, isRest⟩ := isPrefix
          exact (List.cons.inj isRest).1.symm
        have size : others.length + 1 = 3 := by
          rw [length, isLead]
          rfl
        rw [← cons_append] at isPrefix
        have isWhole := prefix_of_prefix_length_le isPrefix
          (prefix_append (lead :: others) w) size.ge
        exact isMarker (isWhole.eq_of_length size.symm).symm
      rw [cons_append, restore_cons notMarker, restore_follow follow, cons_append]

/-- Texts are restored piece by piece when the pieces are aligned. -/
theorem Aligned.restore_append {a : List Byte} (isA : Aligned a) (b : List Byte) :
    restore (a ++ b) = restore a ++ restore b := by
  obtain ⟨chars, areChars, rfl⟩ := isA
  induction chars with
  | nil =>
    rw [flatten_nil, restore]
    rfl
  | cons c chars ih =>
    have isChar := areChars c mem_cons_self
    rw [flatten_cons, append_assoc, restore_char isChar, restore_char isChar,
      ih fun d isMem => areChars d (mem_cons_of_mem _ isMem), append_assoc]

theorem restore_flatten (areAligned : ∀ w ∈ pieces, Aligned w) :
    restore pieces.flatten = pieces.flatMap restore := by
  induction pieces with
  | nil =>
    rw [flatten_nil, restore]
    rfl
  | cons w pieces ih =>
    rw [flatten_cons, (areAligned w mem_cons_self).restore_append,
      ih fun d isMem => areAligned d (mem_cons_of_mem _ isMem),
      flatMap_cons]

end Characters

/-! ## Normalized texts -/

section Normalized

/-- What is written for a character of the text. -/
def spaced (c : List Byte) : List Byte :=
  if c = [0x20] then marker else c

section

variable (isChar : Utf8Char c)

include isChar

theorem Utf8Char.spaced : Utf8Char (spaced c) := by
  unfold Sentencepiece.spaced
  split
  · exact utf8Char_marker
  · exact isChar

theorem Utf8Char.eq_space (isMem : 0x20 ∈ c) : c = [0x20] := by
  cases isChar with
  | @mk lead others _ length follow =>
    rcases mem_cons.mp isMem with isLead | isOther
    · rw [← isLead] at length ⊢
      have none : others.length + 1 = 1 := length
      rw [eq_nil_of_length_eq_zero (succ.inj none)]
    · cases follow _ isOther

theorem Utf8Char.space_notMem : 0x20 ∉ Sentencepiece.spaced c := by
  unfold Sentencepiece.spaced
  split
  · decide
  · rename_i isOther
    exact mt isChar.eq_space isOther

theorem Utf8Char.flatMap :
    (c.flatMap fun b => if b = 0x20 then marker else [b]) = Sentencepiece.spaced c := by
  unfold Sentencepiece.spaced
  split
  · rename_i isSpace
    rw [isSpace]
    rfl
  · rename_i isOther
    have noSpace := mt isChar.eq_space isOther
    have kept : ∀ b ∈ c, (if b = 0x20 then marker else [b]) = [b] := by
      intro b isMem
      rw [if_neg]
      rintro rfl
      exact noSpace isMem
    rw [flatMap_congr kept, flatMap_singleton']

theorem Utf8Char.restore_spaced (notMarker : c ≠ marker) : restore (Sentencepiece.spaced c) = c := by
  have isRestored := restore_char (w := []) isChar.spaced
  rw [append_nil, restore, append_nil] at isRestored
  rw [isRestored]
  unfold Sentencepiece.spaced
  by_cases isSpace : c = [0x20]
  · rw [if_pos isSpace, if_pos rfl, isSpace]
  · rw [if_neg isSpace, if_neg notMarker]

end

variable {chars : List (List Byte)} (areChars : ∀ c ∈ chars, Utf8Char c)
include areChars

theorem utf8Char_of_mem_spaced : ∀ c ∈ marker :: chars.map spaced, Utf8Char c ∧ 0x20 ∉ c := by
  intro c isMem
  rcases mem_cons.mp isMem with rfl | isMem
  · exact ⟨utf8Char_marker, by decide⟩
  · obtain ⟨char, isChar, rfl⟩ := mem_map.mp isMem
    exact ⟨(areChars char isChar).spaced, (areChars char isChar).space_notMem⟩

theorem normalize_flatten : normalize chars.flatten = (marker :: chars.map spaced).flatten := by
  rw [normalize, flatten_cons, append_cancel_left_eq]
  induction chars with
  | nil => rfl
  | cons c chars ih =>
    rw [flatten_cons, flatMap_append, (areChars c mem_cons_self).flatMap,
      ih fun d isMem => areChars d (mem_cons_of_mem _ isMem), map_cons,
      flatten_cons]

theorem characters_normalize :
    characters (normalize chars.flatten).length (normalize chars.flatten) =
      marker :: chars.map spaced := by
  have areSpaced := utf8Char_of_mem_spaced areChars
  rw [normalize_flatten areChars]
  refine characters_flatten (fun c isMem => (areSpaced c isMem).1) ?_
  have positive : ∀ size ∈ (marker :: chars.map spaced).map List.length, 1 ≤ size := by
    intro size isMem
    obtain ⟨c, isChar, rfl⟩ := mem_map.mp isMem
    exact length_pos_of_ne_nil (areSpaced c isChar).1.ne_nil
  have fits := length_le_sum_of_one_le _ positive
  rwa [length_map, ← length_flatten] at fits

/-- Restoring the normalized text gives the text behind a space. -/
theorem restore_normalize (noMarker : marker ∉ chars) :
    restore (normalize chars.flatten) = 0x20 :: chars.flatten := by
  have areAligned : ∀ c ∈ chars.map spaced, Aligned c := fun c isMem =>
    (utf8Char_of_mem_spaced areChars c (mem_cons_of_mem _ isMem)).1.aligned
  have restored : ∀ c ∈ chars, restore (spaced c) = c := by
    intro c isMem
    refine (areChars c isMem).restore_spaced ?_
    rintro rfl
    exact noMarker isMem
  rw [normalize_flatten areChars, flatten_cons, restore_marker,
    restore_flatten areAligned, flatMap_map, flatMap_congr restored, flatMap_id']

end Normalized

/-! ## Decoding the pieces -/

section Pieces

variable {Score : Type} {sentencepiece : Sentencepiece Score} {size : Nat}

/-- The vocabulary has a piece for every byte. -/
def HasBytes (sentencepiece : Sentencepiece Score) : Prop :=
  ∀ b, sentencepiece.Known (byte_to_piece b)

theorem find_byte_to_piece (b : Byte) : Foundation.Occurrences.find marker (byte_to_piece b) = none := by
  have all : ∀ n < 256, Foundation.Occurrences.find marker (byte_to_piece (UInt8.ofNat n)) = none := by decide +kernel
  have isNone := all b.toNat b.toNat_lt
  rwa [UInt8.ofNat_toNat] at isNone

theorem Loaded.decode (loaded : sentencepiece.Loaded size) (known : sentencepiece.Known w) :
    sentencepiece.decode size (sentencepiece.piece_to_id w) = replaceMarker w := by
  obtain ⟨less, isPiece⟩ := loaded.piece_to_id known
  rw [Sentencepiece.decode, if_pos less, isPiece]

theorem Loaded.decode_byte (loaded : sentencepiece.Loaded size)
    (hasBytes : sentencepiece.HasBytes) (b : Byte) :
    sentencepiece.decode size (sentencepiece.piece_to_id (byte_to_piece b)) = byte_to_piece b := by
  rw [loaded.decode (hasBytes b), replaceMarker, find_byte_to_piece]

theorem length_restore_le (w : List Byte) : (restore w).length ≤ w.length := by
  induction w using restore.induct with
  | case1 => rw [restore]
  | case2 b rest isPrefix ih =>
    rw [restore, if_pos isPrefix, length_cons, length_cons]
    rw [length_drop] at ih
    omega
  | case3 b rest notPrefix ih =>
    rw [restore, if_neg notPrefix, length_cons, length_cons]
    omega

/-- What a piece of the text is decoded to. -/
def decodePiece (sentencepiece : Sentencepiece Score) (size : Nat) (w : List Byte) : List Byte :=
  (sentencepiece.idsOf true (w, sentencepiece.piece_to_id w)).flatMap (sentencepiece.decode size)

section

variable (loaded : sentencepiece.Loaded size)

include loaded

theorem Loaded.decodePiece_unknown (hasBytes : sentencepiece.HasBytes)
    (unknown : sentencepiece.piece_to_id w = sentencepiece.unk_id_) :
    sentencepiece.decodePiece size w = w.flatMap byte_to_piece := by
  rw [decodePiece, idsOf, if_pos ⟨unknown, rfl⟩, flatMap_map]
  exact flatMap_congr fun b _ => loaded.decode_byte hasBytes b

theorem Loaded.decodePiece_known (known : sentencepiece.piece_to_id w ≠ sentencepiece.unk_id_) :
    sentencepiece.decodePiece size w = replaceMarker w := by
  rw [decodePiece, idsOf, if_neg fun both => known both.1, flatMap_singleton]
  exact loaded.decode (known_of_ne_unk known)

/-- The names of the bytes of an unknown piece are longer than the piece. -/
theorem Loaded.length_decodePiece (hasBytes : sentencepiece.HasBytes) (some : w ≠ [])
    (unknown : sentencepiece.piece_to_id w = sentencepiece.unk_id_) :
    (restore w).length < (sentencepiece.decodePiece size w).length := by
  have isLength : ∀ b ∈ w, (byte_to_piece b).length = 6 := fun _ _ => rfl
  have shorter := length_restore_le w
  have positive := length_pos_of_ne_nil some
  rw [loaded.decodePiece_unknown hasBytes unknown, length_flatMap,
    map_congr_left isLength, map_const', sum_replicate]
  show (restore w).length < w.length * 6
  omega

/-- A piece is restored if and only if it is known and has its marker at an edge. -/
theorem Loaded.decodePiece_eq_restore_iff (hasBytes : sentencepiece.HasBytes) (some : w ≠ [])
    (noSpace : 0x20 ∉ w) :
    sentencepiece.decodePiece size w = restore w ↔
      sentencepiece.piece_to_id w ≠ sentencepiece.unk_id_ ∧ AtEdge w := by
  by_cases unknown : sentencepiece.piece_to_id w = sentencepiece.unk_id_
  · have longer := loaded.length_decodePiece hasBytes some unknown
    refine iff_of_false ?_ fun both => both.1 unknown
    intro same
    rw [same] at longer
    exact lt_irrefl _ longer
  · rw [loaded.decodePiece_known unknown, replaceMarker_eq_restore_iff noSpace,
      and_iff_right unknown]

end

end Pieces

/-! ## Decoding the text -/

section Texts

/-- No piece of the vocabulary that has a score is taken apart. -/
theorem Loaded.whole {Score : Type} {sentencepiece : Sentencepiece Score} {size : Nat}
    (loaded : sentencepiece.Loaded size) {parts : List (List (List Byte × Nat))}
    (resegmented : List.Forall₂ (Resegmented sentencepiece) pieces parts) :
    parts.flatten = pieces.map fun w => (w, sentencepiece.piece_to_id w) := by
  induction resegmented with
  | nil => rfl
  | cons here later ih =>
    rw [flatten_cons, here.whole fun id isPiece => loaded.used isPiece, ih]
    rfl

theorem encodeChar_ne_marker {c : Char} (different : c ≠ '▁') :
    String.utf8EncodeChar c ≠ marker := by
  intro same
  have isMarker : String.utf8EncodeChar '▁' = marker := rfl
  have decodes (d : Char) := @ByteArray.utf8DecodeChar?_utf8EncodeChar_append ByteArray.empty d
  have first := decodes c
  rw [same, ← isMarker, decodes] at first
  exact different (Option.some.inj first).symm

variable {Score : Type} [LinearOrder Score] {sentencepiece : Sentencepiece Score} {size : Nat}

theorem Loaded.encode_pieces (loaded : sentencepiece.Loaded size)
    (queue : PriorityQueue (SymbolPair Score) SymbolPair.Less)
    (areChars : ∀ c ∈ chars, Utf8Char c) :
    ∃ enough, ∀ fuel ≥ enough, ∃ ids pieces,
      sentencepiece.encode true queue fuel chars.flatten = some ids ∧
        Merges sentencepiece.scoreOf (marker :: chars.map spaced) pieces ∧
        ids.flatMap (sentencepiece.decode size) =
          pieces.flatMap (sentencepiece.decodePiece size) := by
  let normalized := normalize chars.flatten
  refine ⟨4 * (characters normalized.length normalized).length + normalized.length + 1,
    fun fuel enough => ?_⟩
  obtain ⟨output, pieces, parts, isOutput, merges, resegmented, rfl, -⟩ :=
    bpe_encode_pieces sentencepiece queue normalized enough
  rw [characters_normalize areChars] at merges
  refine ⟨parts.flatten.flatMap (sentencepiece.idsOf true), pieces, ?_, merges, ?_⟩
  · rw [encode, isOutput]
    rfl
  · rw [loaded.whole resegmented, flatMap_map, flatMap_assoc]
    rfl

/-- By this the agenda is ordered. -/
def agendaKey (pair : SymbolPair Score) : Score ×ₗ Natᵒᵈ :=
  toLex (pair.score, OrderDual.toDual pair.left)

theorem less_iff_agendaKey {first second : SymbolPair Score} :
    first.Less second ↔ agendaKey first < agendaKey second := by
  rw [agendaKey, agendaKey, Prod.Lex.toLex_lt_toLex]
  rfl

/-- An agenda for `bpe_encode`. -/
def agendaQueue : PriorityQueue (SymbolPair Score) SymbolPair.Less :=
  let queue := PriorityQueue.ofKey (@agendaKey Score)
  { pop := queue.pop
    pop_none := queue.pop_none
    pop_perm := queue.pop_perm
    pop_greatest := fun elements top rest isTop other isMem =>
      mt less_iff_agendaKey.mp (queue.pop_greatest elements top rest isTop other isMem) }

/-- The bytes, a marker and the letter `a`. -/
def smallVocabulary : List (Option (SentencePiece Nat)) :=
  some { piece := [0x3C, 0x75, 0x6E, 0x6B, 0x3E], score := 0, type := .unknown } ::
    (List.range 256).map (fun n =>
      some { piece := byte_to_piece (UInt8.ofNat n), score := 0, type := .byte }) ++
    [some { piece := marker, score := 0, type := .normal },
      some { piece := [0x61], score := 0, type := .normal }]

def small : Sentencepiece Nat :=
  load_vocab { piece := [], score := 0, type := .normal } smallVocabulary

theorem small_hasBytes : small.HasBytes := by
  intro b
  refine known_loadFrom (.inr ⟨{ piece := byte_to_piece b, score := 0, type := .byte }, ?_, rfl⟩)
  refine mem_append_left _ (mem_cons_of_mem _ (mem_map.mpr ⟨b.toNat, ?_, ?_⟩))
  · exact mem_range.mpr b.toNat_lt
  · rw [UInt8.ofNat_toNat]

/-- Two pieces whose concatenation is not in the vocabulary stay as they are. -/
theorem small_merges (noPair : small.pieces_ (marker ++ c) = none)
    (merges : Merges small.scoreOf [marker, c] pieces) :
    pieces = [marker, c] := by
  refine merges.unique (.done ?_)
  intro before left right after isPair
  have lengths := congrArg List.length isPair
  rw [length_append, length_cons, length_cons] at lengths
  cases before with
  | nil =>
    injection isPair with isLeft isRight
    injection isRight with isRight _
    rw [← isLeft, ← isRight, scoreOf, noPair]
    rfl
  | cons first before =>
    have size : 2 = (first :: before).length + (left :: right :: after).length := lengths
    rw [length_cons, length_cons, length_cons] at size
    omega

theorem small_piece_to_id_marker : small.piece_to_id marker ≠ small.unk_id_ := by
  decide +kernel

theorem small_decodePiece_marker : small.decodePiece smallVocabulary.length marker = [0x20] :=
  (loaded_load_vocab _ smallVocabulary).decodePiece_known small_piece_to_id_marker

end Texts

end Sentencepiece

end Mnn.Llm
