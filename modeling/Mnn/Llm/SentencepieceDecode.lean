import Mnn.Foundation.Occurrences
import Mnn.Llm.BpeEncode

/-!
# Encoding and decoding of the SentencePiece tokenizer

The ids of a text are those of its pieces, and a piece is decoded by replacing its
first marker by a space.  A piece that has a marker somewhere else than at its start
or its end, or more than one, is not restored, and the bytes of an unknown piece are
decoded to the names of the bytes.
-/

namespace Mnn.Llm

open Mnn.Foundation.Occurrences
open Mnn.Foundation.PairMerging
open List
open Option
open Function
open Nat

variable {w : List Byte} {w : List Byte} {index id pos : Nat}

namespace Sentencepiece

variable {Score : Type}

/-! ## Loading -/

/-- `insert`, which keeps what is there. -/
def insertPiece (map : List Byte → Option Nat) (key : List Byte) (index : Nat) :
    List Byte → Option Nat :=
  update map key (some ((map key).getD index))

/-- What `load_vocab` does with a line. -/
def addPiece (sentencepiece : Sentencepiece Score) (index : Nat)
    (record : SentencePiece Score) : Sentencepiece Score where
  sentence_pieces_ := update sentencepiece.sentence_pieces_ index record
  pieces_ :=
    if record.type = .normal then insertPiece sentencepiece.pieces_ record.piece index
    else sentencepiece.pieces_
  reserved_id_map_ :=
    if record.type = .normal then sentencepiece.reserved_id_map_
    else insertPiece sentencepiece.reserved_id_map_ record.piece index
  unk_id_ := if record.type = .unknown then index else sentencepiece.unk_id_

/-- The loop of `load_vocab`; a line without its two spaces is skipped. -/
def loadFrom : Nat → Sentencepiece Score → List (Option (SentencePiece Score)) → Sentencepiece Score
  | _, sentencepiece, [] => sentencepiece
  | index, sentencepiece, none :: records => loadFrom (index + 1) sentencepiece records
  | index, sentencepiece, some record :: records =>
    loadFrom (index + 1) (sentencepiece.addPiece index record) records

/-- `load_vocab`, where `fresh` is what a piece is before its line is read. -/
def load_vocab (fresh : SentencePiece Score) (records : List (Option (SentencePiece Score))) :
    Sentencepiece Score :=
  loadFrom 0
    { sentence_pieces_ := fun _ => fresh
      pieces_ := fun _ => none
      reserved_id_map_ := fun _ => none
      unk_id_ := 0 } records

/-! ## Encoding and decoding -/

/-- The bytes of U+2581. -/
def marker : List Byte := [0xE2, 0x96, 0x81]

def hexDigit (n : Nat) : Byte :=
  if n < 10 then UInt8.ofNat (48 + n) else UInt8.ofNat (55 + n)

/-- `"<0x%02X>"` -/
def byte_to_piece (c : Byte) : List Byte :=
  [0x3C, 0x30, 0x78, hexDigit (c.toNat / 16), hexDigit (c.toNat % 16), 0x3E]

/-- The text with markers for its spaces and one in front. -/
def normalize (str : List Byte) : List Byte :=
  marker ++ str.flatMap fun c => if c = 0x20 then marker else [c]

/-- The ids that a piece of the text is given. -/
def idsOf (sentencepiece : Sentencepiece Score) (byte_fall_back_ : Bool)
    (p : List Byte × Nat) : List Nat :=
  if p.2 = sentencepiece.unk_id_ ∧ byte_fall_back_ then
    p.1.map fun b => sentencepiece.piece_to_id (byte_to_piece b)
  else
    [p.2]

/-- `encode`, with fuel for `bpe_encode`. -/
def encode [LinearOrder Score] (sentencepiece : Sentencepiece Score)
    (byte_fall_back_ : Bool) (queue : PriorityQueue (SymbolPair Score) SymbolPair.Less)
    (fuel : Nat) (str : List Byte) : Option (List Nat) := do
  let result ← sentencepiece.bpe_encode queue fuel (normalize str)
  return result.flatMap (sentencepiece.idsOf byte_fall_back_)

/-- `piece.replace(pos, pos + 3, " ")` at the first marker. -/
def replaceMarker (piece : List Byte) : List Byte :=
  match Foundation.Occurrences.find marker piece with
  | some pos => piece.take pos ++ [0x20] ++ piece.drop (pos + (pos + 3))
  | none => piece

def decode (sentencepiece : Sentencepiece Score) (size id : Nat) : List Byte :=
  if id < size then replaceMarker (sentencepiece.sentence_pieces_ id).piece else []

/-! ## The vocabulary -/

/-- What is found has the content that was looked for. -/
structure Loaded (sentencepiece : Sentencepiece Score) (size : Nat) : Prop where
  pieces : ∀ w id, sentencepiece.pieces_ w = some id →
    id < size ∧ (sentencepiece.sentence_pieces_ id).piece = w ∧
      (sentencepiece.sentence_pieces_ id).type = .normal
  reserved : ∀ w id, sentencepiece.reserved_id_map_ w = some id →
    id < size ∧ (sentencepiece.sentence_pieces_ id).piece = w

section Loading

variable {sentencepiece : Sentencepiece Score} {size : Nat}

theorem Loaded.skip (loaded : sentencepiece.Loaded size) : sentencepiece.Loaded (size + 1) where
  pieces w id isId :=
    have found := loaded.pieces w id isId
    ⟨lt_succ_of_lt found.1, found.2⟩
  reserved w id isId :=
    have found := loaded.reserved w id isId
    ⟨lt_succ_of_lt found.1, found.2⟩

theorem insertPiece_eq_some {map : List Byte → Option Nat} {key : List Byte}
    (isId : insertPiece map key index w = some id) :
    map w = some id ∨ w = key ∧ id = index := by
  unfold insertPiece at isId
  by_cases same : w = key
  · subst same
    rw [update_self] at isId
    cases isMap : map w with
    | none =>
      rw [isMap] at isId
      exact .inr ⟨rfl, (some.inj isId).symm⟩
    | some other =>
      rw [isMap] at isId
      exact .inl isId
  · rw [update_of_ne same] at isId
    exact .inl isId

theorem Loaded.addPiece (loaded : sentencepiece.Loaded size)
    (record : SentencePiece Score) : (sentencepiece.addPiece size record).Loaded (size + 1) := by
  have kept {id : Nat} (less : id < size) :
      (sentencepiece.addPiece size record).sentence_pieces_ id =
        sentencepiece.sentence_pieces_ id := by
    rw [Sentencepiece.addPiece]
    exact update_of_ne less.ne _ _
  have added : (sentencepiece.addPiece size record).sentence_pieces_ size = record := by
    rw [Sentencepiece.addPiece]
    exact update_self _ _ _
  constructor
  · intro w id isId
    by_cases isNormal : record.type = .normal
    · simp only [Sentencepiece.addPiece, if_pos isNormal] at isId
      rcases insertPiece_eq_some isId with isOld | ⟨rfl, rfl⟩
      · have found := loaded.pieces w id isOld
        rw [kept found.1]
        exact ⟨lt_succ_of_lt found.1, found.2⟩
      · rw [added]
        exact ⟨lt_succ_self _, rfl, isNormal⟩
    · simp only [Sentencepiece.addPiece, if_neg isNormal] at isId
      have found := loaded.pieces w id isId
      rw [kept found.1]
      exact ⟨lt_succ_of_lt found.1, found.2⟩
  · intro w id isId
    by_cases isNormal : record.type = .normal
    · simp only [Sentencepiece.addPiece, if_pos isNormal] at isId
      have found := loaded.reserved w id isId
      rw [kept found.1]
      exact ⟨lt_succ_of_lt found.1, found.2⟩
    · simp only [Sentencepiece.addPiece, if_neg isNormal] at isId
      rcases insertPiece_eq_some isId with isOld | ⟨rfl, rfl⟩
      · have found := loaded.reserved w id isOld
        rw [kept found.1]
        exact ⟨lt_succ_of_lt found.1, found.2⟩
      · rw [added]
        exact ⟨lt_succ_self _, rfl⟩

theorem Loaded.loadFrom (loaded : sentencepiece.Loaded size)
    (records : List (Option (SentencePiece Score))) :
    (loadFrom size sentencepiece records).Loaded (size + records.length) := by
  induction records generalizing size sentencepiece with
  | nil => exact loaded
  | cons record records ih =>
    rw [length_cons, ← Nat.add_assoc, Nat.add_right_comm]
    cases record with
    | none => exact ih loaded.skip
    | some record => exact ih (loaded.addPiece record)

theorem loaded_load_vocab (fresh : SentencePiece Score)
    (records : List (Option (SentencePiece Score))) :
    (load_vocab fresh records).Loaded records.length := by
  let empty : Sentencepiece Score :=
    { sentence_pieces_ := fun _ => fresh
      pieces_ := fun _ => none
      reserved_id_map_ := fun _ => none
      unk_id_ := 0 }
  have start : empty.Loaded 0 := by
    constructor
    · rintro w id ⟨⟩
    · rintro w id ⟨⟩
  have loaded := start.loadFrom records
  rwa [Nat.zero_add] at loaded

/-- A piece of the vocabulary has an id, and is the content of that id. -/
def Known (sentencepiece : Sentencepiece Score) (w : List Byte) : Prop :=
  (sentencepiece.pieces_ w).isSome ∨ (sentencepiece.reserved_id_map_ w).isSome

theorem Loaded.piece_to_id (loaded : sentencepiece.Loaded size) (known : sentencepiece.Known w) :
    sentencepiece.piece_to_id w < size ∧
      (sentencepiece.sentence_pieces_ (sentencepiece.piece_to_id w)).piece = w := by
  unfold Sentencepiece.piece_to_id
  cases isReserved : sentencepiece.reserved_id_map_ w with
  | some id => exact loaded.reserved w id isReserved
  | none =>
    cases isPiece : sentencepiece.pieces_ w with
    | some id =>
      have found := loaded.pieces w id isPiece
      exact ⟨found.1, found.2.1⟩
    | none =>
      rcases known with isSome | isSome
      · rw [isPiece] at isSome
        cases isSome
      · rw [isReserved] at isSome
        cases isSome

theorem known_of_ne_unk (different : sentencepiece.piece_to_id w ≠ sentencepiece.unk_id_) :
    sentencepiece.Known w := by
  unfold Sentencepiece.piece_to_id at different
  unfold Known
  cases isReserved : sentencepiece.reserved_id_map_ w with
  | some id => exact .inr rfl
  | none =>
    rw [isReserved] at different
    cases isPiece : sentencepiece.pieces_ w with
    | some id => exact .inl rfl
    | none =>
      rw [isPiece] at different
      exact absurd rfl different

theorem addPiece_pieces_ (index : Nat) (record : SentencePiece Score) :
    (sentencepiece.addPiece index record).pieces_ =
      if record.type = .normal then insertPiece sentencepiece.pieces_ record.piece index
      else sentencepiece.pieces_ :=
  rfl

theorem addPiece_reserved_id_map_ (index : Nat) (record : SentencePiece Score) :
    (sentencepiece.addPiece index record).reserved_id_map_ =
      if record.type = .normal then sentencepiece.reserved_id_map_
      else insertPiece sentencepiece.reserved_id_map_ record.piece index :=
  rfl

theorem Known.addPiece (known : sentencepiece.Known w) (index : Nat)
    (record : SentencePiece Score) : (sentencepiece.addPiece index record).Known w := by
  have kept {map : List Byte → Option Nat} (isSome : (map w).isSome) :
      (insertPiece map record.piece index w).isSome := by
    unfold insertPiece
    by_cases same : w = record.piece
    · rw [same, update_self]
      rfl
    · rwa [update_of_ne same]
  by_cases isNormal : record.type = .normal
  · refine known.imp (fun isPiece => ?_) fun isReserved => ?_
    · rw [addPiece_pieces_, if_pos isNormal]
      exact kept isPiece
    · rwa [addPiece_reserved_id_map_, if_pos isNormal]
  · refine known.imp (fun isPiece => ?_) fun isReserved => ?_
    · rwa [addPiece_pieces_, if_neg isNormal]
    · rw [addPiece_reserved_id_map_, if_neg isNormal]
      exact kept isReserved

theorem known_addPiece (index : Nat) (record : SentencePiece Score) :
    (sentencepiece.addPiece index record).Known record.piece := by
  by_cases isNormal : record.type = .normal
  · refine .inl ?_
    rw [addPiece_pieces_, if_pos isNormal, insertPiece, update_self]
    rfl
  · refine .inr ?_
    rw [addPiece_reserved_id_map_, if_neg isNormal, insertPiece, update_self]
    rfl

theorem known_loadFrom {records : List (Option (SentencePiece Score))}
    (isKnown : sentencepiece.Known w ∨ ∃ record, some record ∈ records ∧ record.piece = w) :
    (loadFrom index sentencepiece records).Known w := by
  induction records generalizing index sentencepiece with
  | nil =>
    rcases isKnown with known | ⟨record, isMem, -⟩
    · exact known
    · cases isMem
  | cons first records ih =>
    cases first with
    | none =>
      refine ih (isKnown.imp_right ?_)
      rintro ⟨record, isMem, isPiece⟩
      rcases mem_cons.mp isMem with isFirst | isLater
      · cases isFirst
      · exact ⟨record, isLater, isPiece⟩
    | some first =>
      refine ih ?_
      rcases isKnown with known | ⟨record, isMem, rfl⟩
      · exact .inl (known.addPiece index first)
      · rcases mem_cons.mp isMem with isFirst | isLater
        · rw [some.inj isFirst]
          exact .inl (known_addPiece index first)
        · exact .inr ⟨record, isLater, rfl⟩

theorem Loaded.used (loaded : sentencepiece.Loaded size)
    (isPiece : sentencepiece.pieces_ w = some id) : sentencepiece.is_unused id = false := by
  rw [is_unused, (loaded.pieces w id isPiece).2.2]
  rfl

end Loading

/-! ## Restoring -/

section Restoring

/-- The text with spaces for its markers. -/
def restore : List Byte → List Byte
  | [] => []
  | b :: rest =>
    if marker.isPrefixOf (b :: rest) then
      0x20 :: restore (rest.drop 2)
    else
      b :: restore rest
  termination_by text => text.length

theorem restore_marker (w : List Byte) : restore (marker ++ w) = 0x20 :: restore w := by
  have isPrefix : marker.isPrefixOf (0xE2 :: 0x96 :: 0x81 :: w) = true := rfl
  show restore (0xE2 :: 0x96 :: 0x81 :: w) = _
  rw [restore, if_pos isPrefix]
  rfl

theorem restore_cons {b : Byte} (notMarker : ¬marker <+: b :: w) :
    restore (b :: w) = b :: restore w := by
  rw [restore, if_neg (mt isPrefixOf_iff_prefix.mp notMarker)]

theorem restore_of_find (found : Foundation.Occurrences.find marker w = some pos) :
    restore w = w.take pos ++ 0x20 :: restore (w.drop (pos + 3)) := by
  induction w generalizing pos with
  | nil => cases found
  | cons b w ih =>
    rw [Foundation.Occurrences.find] at found
    split at found
    · rename_i isPrefix
      obtain rfl := some.inj found
      obtain ⟨rest, isRest⟩ := isPrefixOf_iff_prefix.mp isPrefix
      rw [← isRest, restore_marker]
      rfl
    · rename_i notPrefix
      obtain ⟨pos, isFound, rfl⟩ := map_eq_some_iff.mp found
      rw [restore_cons (mt isPrefixOf_iff_prefix.mpr notPrefix), ih isFound]
      rw [show pos + 1 + 3 = pos + 3 + 1 by omega]
      rfl

theorem restore_of_none (absent : Foundation.Occurrences.find marker w = none) : restore w = w := by
  induction w with
  | nil => rw [restore]
  | cons b w ih =>
    rw [Foundation.Occurrences.find] at absent
    split at absent
    · cases absent
    · rename_i notPrefix
      rw [restore_cons (mt isPrefixOf_iff_prefix.mpr notPrefix),
        ih (map_eq_none_iff.mp absent)]

theorem space_mem_restore (found : Foundation.Occurrences.find marker w = some pos) :
    0x20 ∈ restore w := by
  rw [restore_of_find found]
  exact mem_append_cons_self

/-- The marker of the piece is its first or its last character, and there is one. -/
def AtEdge (w : List Byte) : Prop :=
  ∀ pos, Foundation.Occurrences.find marker w = some pos →
    Foundation.Occurrences.find marker (w.drop (pos + 3)) = none ∧ (pos = 0 ∨ w.length = pos + 3)

/-- Decoding restores a piece without spaces if and only if its marker is at an edge. -/
theorem replaceMarker_eq_restore_iff (noSpace : 0x20 ∉ w) :
    replaceMarker w = restore w ↔ AtEdge w := by
  unfold replaceMarker AtEdge
  cases isFound : Foundation.Occurrences.find marker w with
  | none => exact iff_of_true (restore_of_none isFound).symm fun pos isPos => by cases isPos
  | some pos =>
    have occurs := (find_eq_some isFound).1
    have fits := occurs.length_le (by decide)
    have size : marker.length = 3 := rfl
    have behind : w.drop (pos + (pos + 3)) = (w.drop (pos + 3)).drop pos := by
      rw [drop_drop]
      congr 1
      omega
    rw [restore_of_find isFound]
    dsimp only
    rw [behind, append_assoc, append_cancel_left_eq, singleton_append,
      List.cons.injEq, and_iff_right rfl]
    constructor
    · rintro same _ ⟨⟩
      cases isOther : Foundation.Occurrences.find marker (w.drop (pos + 3)) with
      | none =>
        refine ⟨rfl, ?_⟩
        rw [restore_of_none isOther] at same
        have lengths := congrArg List.length same
        rw [length_drop, length_drop] at lengths
        omega
      | some other =>
        have isSpace := space_mem_restore isOther
        rw [← same] at isSpace
        exact absurd (mem_of_mem_drop (mem_of_mem_drop isSpace)) noSpace
    · intro atEdge
      obtain ⟨none, edge⟩ := atEdge pos rfl
      rw [restore_of_none none]
      rcases edge with rfl | last
      · rfl
      · rw [drop_eq_nil_of_le (show w.length ≤ pos + 3 by omega), drop_nil]

end Restoring

end Sentencepiece

end Mnn.Llm
