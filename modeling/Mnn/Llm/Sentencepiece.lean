import Mnn.Foundation.PairMerging
import Mnn.Llm.Trie

/-!
# The SentencePiece tokenizer

`bpe_encode` merges pieces of the text, with an agenda of the pairs that could
be merged.  Entries of the agenda are never taken back: those that no longer
hold are told from the sizes of the symbols when they come up.

The tables are functions of the contents of a piece.  Nothing is dropped out at
random (`alpha` is 0), and the matcher that could freeze symbols is not used.
-/

namespace Mnn.Llm

open Mnn.Foundation.PairMerging

inductive PieceType where
  | normal
  | unknown
  | control
  | userDefined
  | unused
  | byte
  deriving DecidableEq, Repr

structure SentencePiece (Score : Type*) where
  piece : List Byte
  score : Score
  type : PieceType

structure Sentencepiece (Score : Type*) where
  sentence_pieces_ : Nat → SentencePiece Score
  pieces_ : List Byte → Option Nat
  reserved_id_map_ : List Byte → Option Nat
  unk_id_ : Nat

/-- A `string_view_` of the text. -/
structure View where
  data : Nat
  size : Nat
  deriving DecidableEq, Repr

def View.bytes (text : List Byte) (view : View) : List Byte := (text.drop view.data).take view.size

/-- A symbol.  The index -1 of `prev` and `next` is `none`. -/
structure Symbol where
  prev : Option Nat
  next : Option Nat
  freeze : Bool := false
  piece : View
  deriving DecidableEq, Repr

structure SymbolPair (Score : Type*) where
  left : Nat
  right : Nat
  score : Score
  size : Nat
  deriving DecidableEq, Repr

/-- `SymbolPairComparator`. -/
def SymbolPair.Less {Score : Type*} [LinearOrder Score] (h1 h2 : SymbolPair Score) : Prop :=
  h1.score < h2.score ∨ h1.score = h2.score ∧ h1.left > h2.left

/-- What the lambdas of `bpe_encode` share. -/
structure BpeState (Score : Type*) where
  symbols : Nat → Symbol
  agenda : List (SymbolPair Score)
  rev_merge : List Byte → Option (View × View)

namespace Sentencepiece

variable {Score : Type*} [LinearOrder Score] (sentencepiece : Sentencepiece Score)

def get_score (id : Nat) : Score := (sentencepiece.sentence_pieces_ id).score

def is_unused (id : Nat) : Bool := (sentencepiece.sentence_pieces_ id).type = .unused

def piece_to_id (piece : List Byte) : Nat :=
  match sentencepiece.reserved_id_map_ piece with
  | some id => id
  | none =>
    match sentencepiece.pieces_ piece with
    | some id => id
    | none => sentencepiece.unk_id_

def one_char_len (src : Byte) : Nat :=
  [1, 1, 1, 1, 1, 1, 1, 1, 1, 1, 1, 1, 2, 2, 3, 4].getD (src.toNat / 16) 1

/-- The loop that splits the text from a byte on. -/
def splitSymbols (normalized : List Byte) : Nat → Nat → Nat → List Symbol
  | 0, _, _ => []
  | fuel + 1, data, index =>
    if data < normalized.length then
      let mblen :=
        min (normalized.length - data) (one_char_len (normalized.getD data 0))
      { prev := if index = 0 then none else some (index - 1)
        next :=
          if data + mblen = normalized.length then none else some (index + 1)
        piece := { data := data, size := mblen } } ::
        splitSymbols normalized fuel (data + mblen) (index + 1)
    else
      []

def maybeAddNewSymbolPair (text : List Byte) (state : BpeState Score) (left right : Option Nat) :
    BpeState Score :=
  match left, right with
  | some left, some right =>
    if (state.symbols left).freeze || (state.symbols right).freeze then
      state
    else
      let first := (state.symbols left).piece
      let second := (state.symbols right).piece
      let piece : View :=
        { data := first.data, size := first.size + second.size }
      match sentencepiece.pieces_ (piece.bytes text) with
      | none => state
      | some id =>
        { state with
          agenda :=
            { left := left
              right := right
              score := sentencepiece.get_score id
              size := piece.size } :: state.agenda
          rev_merge :=
            if sentencepiece.is_unused id then
              Function.update state.rev_merge (piece.bytes text) (some (first, second))
            else
              state.rev_merge }
  | _, _ => state

/-- The state behind the lookup of all bigrams. -/
def start (text : List Byte) (symbols : List Symbol) : BpeState Score :=
  (List.range (symbols.length - 1)).foldl (fun state i =>
      maybeAddNewSymbolPair sentencepiece text state (some i) (some (i + 1)))
    { symbols := fun index =>
        symbols.getD index { prev := none, next := none, piece := { data := 0, size := 0 } }
      agenda := []
      rev_merge := fun _ => none }

/-- The symbols after `top` was used as a rule. -/
def replaceSymbols (symbols : Nat → Symbol) (top : SymbolPair Score) : Nat → Symbol :=
  let left := symbols top.left
  let right := symbols top.right
  let symbols :=
    Function.update symbols top.left
      { left with
        piece :=
          { data := left.piece.data
            size := left.piece.size + right.piece.size }
        next := right.next }
  let symbols :=
    match right.next with
    | none => symbols
    | some next =>
      Function.update symbols next { symbols next with prev := some top.left }
  Function.update symbols top.right { symbols top.right with piece := { data := 0, size := 0 } }

/-- The part of the main loop behind the test of `top`. -/
def mergeTop (text : List Byte) (state : BpeState Score) (top : SymbolPair Score) :
    BpeState Score :=
  let state := { state with symbols := replaceSymbols state.symbols top }
  let state :=
    maybeAddNewSymbolPair sentencepiece text state (state.symbols top.left).prev (some top.left)
  maybeAddNewSymbolPair sentencepiece text state (some top.left) (state.symbols top.left).next

/-- Whether `top` is no longer available. -/
def unavailable (symbols : Nat → Symbol) (top : SymbolPair Score) : Prop :=
  (symbols top.left).piece.size = 0 ∨ (symbols top.right).piece.size = 0 ∨
    (symbols top.left).piece.size + (symbols top.right).piece.size ≠ top.size

instance (symbols : Nat → Symbol) (top : SymbolPair Score) :
    Decidable (unavailable symbols top) :=
  inferInstanceAs (Decidable (_ ∨ _ ∨ _))

/-- The main loop. -/
def mainLoop (queue : PriorityQueue (SymbolPair Score) SymbolPair.Less)
    (text : List Byte) : Nat → BpeState Score → Option (BpeState Score)
  | 0, _ => none
  | fuel + 1, state =>
    match queue.pop state.agenda with
    | none => some state
    | some (top, agenda) =>
      if unavailable state.symbols top then
        mainLoop queue text fuel { state with agenda := agenda }
      else
        mainLoop queue text fuel (mergeTop sentencepiece text { state with agenda := agenda } top)

def resegment (text : List Byte) (rev_merge : List Byte → Option (View × View)) :
    Nat → List Byte → Option (List (List Byte × Nat))
  | 0, _ => none
  | fuel + 1, w =>
    let id := sentencepiece.piece_to_id w
    if ¬sentencepiece.is_unused id then
      some [(w, id)]
    else
      match rev_merge w with
      | none => some [(w, id)]
      | some (first, second) => do
          let left ← resegment text rev_merge fuel (first.bytes text)
          let right ← resegment text rev_merge fuel (second.bytes text)
          return left ++ right

/-- The loop that follows `next` from a symbol on. -/
def collect (text : List Byte) (state : BpeState Score) (fuel : Nat) :
    Nat → Option Nat → Option (List (List Byte × Nat))
  | _, none => some []
  | 0, some _ => none
  | steps + 1, some index => do
      let here ←
        resegment sentencepiece text state.rev_merge fuel ((state.symbols index).piece.bytes text)
      let later ← collect text state fuel steps (state.symbols index).next
      return here ++ later

/-- `bpe_encode`, where each loop and recursion may take `fuel` steps. -/
def bpe_encode (queue : PriorityQueue (SymbolPair Score) SymbolPair.Less) (fuel : Nat)
    (normalized : List Byte) : Option (List (List Byte × Nat)) :=
  let symbols := splitSymbols normalized normalized.length 0 0
  if symbols.isEmpty then
    some []
  else
    match
      mainLoop sentencepiece queue normalized fuel (start sentencepiece normalized symbols)
    with
    | none => none
    | some state =>
      collect sentencepiece normalized state fuel fuel (some 0)

end Sentencepiece

end Mnn.Llm
