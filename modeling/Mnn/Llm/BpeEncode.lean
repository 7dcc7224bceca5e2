import Mnn.Llm.BpeAgenda

/-!
# The pieces of `bpe_encode`

The characters of the text are merged as long as there is a pair with a score,
the best first.  Pieces that are not used as such are taken apart again.
-/

variable {text : List Byte}

namespace Mnn.Llm

open Mnn.Foundation.LinkedList
open Mnn.Foundation.PairMerging
open List
open Nat

namespace Sentencepiece

/-! ## Characters -/

/-- The text, cut behind each character. -/
def characters : Nat → List Byte → List (List Byte)
  | 0, _ => []
  | _, [] => []
  | fuel + 1, c :: rest =>
    (c :: rest).take (one_char_len c) :: characters fuel ((c :: rest).drop (one_char_len c))

theorem one_char_len_pos (src : Byte) : 0 < one_char_len src := by
  unfold one_char_len
  rw [getD_eq_getElem?_getD]
  cases isLen : [1, 1, 1, 1, 1, 1, 1, 1, 1, 1, 1, 1, 2, 2, 3, 4][src.toNat / 16]? with
  | none => exact Nat.one_pos
  | some len =>
    have positive : ∀ len ∈ [1, 1, 1, 1, 1, 1, 1, 1, 1, 1, 1, 1, 2, 2, 3, 4], 0 < len := by
      decide
    exact positive len (mem_of_getElem? isLen)

theorem flatten_characters {fuel : Nat} (enough : text.length ≤ fuel) :
    (characters fuel text).flatten = text := by
  induction fuel generalizing text with
  | zero => exact (eq_nil_of_length_eq_zero (le_zero.mp enough)).symm
  | succ fuel ih =>
    cases text with
    | nil => rfl
    | cons c rest =>
      have positive := one_char_len_pos c
      have shorter : ((c :: rest).drop (one_char_len c)).length ≤ fuel := by
        rw [length_drop]
        rw [length_cons] at *
        omega
      rw [characters, flatten_cons, ih shorter, take_append_drop]

theorem characters_eq_nil {fuel : Nat} (enough : text.length ≤ fuel) :
    characters fuel text = [] ↔ text = [] := by
  constructor
  · intro none
    rw [← flatten_characters enough, none, flatten_nil]
  · rintro rfl
    cases fuel <;> rfl

theorem characters_ne_nil {fuel : Nat} {char : List Byte} (member : char ∈ characters fuel text) :
    char ≠ [] := by
  induction fuel generalizing text with
  | zero => nomatch member
  | succ fuel ih =>
    cases text with
    | nil => nomatch member
    | cons c rest =>
      rcases mem_cons.mp member with rfl | later
      · rw [ne_eq, take_eq_nil_iff]
        have positive := one_char_len_pos c
        rintro (none | empty)
        · omega
        · nomatch empty
      · exact ih later

/-- The symbol of a character. -/
def symbolOf (chars : List (List Byte)) (data index k : Nat) : Symbol :=
  { prev := if index + k = 0 then none else some (index + k - 1)
    next := if k + 1 = chars.length then none else some (index + k + 1)
    piece :=
      { data := data + (chars.take k).flatten.length
        size := (chars.getD k []).length } }

/-- The symbols behind the first are those of the other characters. -/
theorem symbolOf_succ (char : List Byte) (chars : List (List Byte)) (data index k : Nat) :
    symbolOf (char :: chars) data index (k + 1) =
      symbolOf chars (data + char.length) (index + 1) k := by
  have places : index + (k + 1) = index + 1 + k := by
    omega
  have atEnd : k + 1 + 1 = (char :: chars).length ↔ k + 1 = chars.length := by
    rw [length_cons]
    exact succ_inj
  simp only [symbolOf, places, atEnd, take_succ_cons, flatten_cons,
    length_append, Nat.add_assoc, getD_cons_succ]

theorem splitSymbols_eq {fuel data : Nat} (index : Nat) (enough : text.length - data ≤ fuel) :
    splitSymbols text fuel data index = (List.range (characters fuel (text.drop data)).length).map
        (symbolOf (characters fuel (text.drop data)) data index) := by
  induction fuel generalizing data index with
  | zero => rfl
  | succ fuel ih =>
    unfold splitSymbols
    by_cases less : data < text.length
    · rw [if_pos less]
      cases isRest : text.drop data with
      | nil =>
        exact absurd (drop_eq_nil_iff.mp isRest) (Nat.not_le_of_lt less)
      | cons c rest =>
        have isByte : text.getD data 0 = c := by
          have first := congrArg List.head? isRest
          rw [head?_drop, head?_cons] at first
          rw [getD_eq_getElem?_getD, first, Option.getD_some]
        have restLength : text.length - data = (c :: rest).length := by
          rw [← isRest, length_drop]
        have isLength :
            min (text.length - data) (one_char_len c) =
              ((c :: rest).take (one_char_len c)).length := by
          rw [length_take, restLength, min_comm]
        have positive := one_char_len_pos c
        have isDrop : text.drop (data + ((c :: rest).take (one_char_len c)).length) =
              (c :: rest).drop (one_char_len c) := by
          rw [← drop_drop, isRest, length_take]
          rcases le_total (one_char_len c) (c :: rest).length with
            inside | outside
          · rw [min_eq_left inside]
          · rw [min_eq_right outside, drop_length, drop_eq_nil_of_le outside]
        have enoughLater : text.length - (data + ((c :: rest).take (one_char_len c)).length) ≤
              fuel := by
          rw [← isLength]
          omega
        have atEnd :
            data + ((c :: rest).take (one_char_len c)).length = text.length ↔
              (characters fuel ((c :: rest).drop (one_char_len c))).length =
                0 := by
          rw [← isDrop, length_eq_zero_iff,
            characters_eq_nil (by rw [length_drop]; exact enoughLater),
            drop_eq_nil_iff, ← isLength]
          omega
        simp only [isByte, isLength]
        rw [ih (index + 1) enoughLater, isDrop, characters,
          length_cons, range_succ_eq_map, map_cons,
          map_map]
        congr 1
        · simp only [symbolOf, atEnd, length_cons, Nat.add_zero,
            take_zero, flatten_nil, length_nil,
            getD_cons_zero, Nat.zero_add, Nat.right_eq_add]
        · apply map_congr_left
          intro k _
          exact (symbolOf_succ _ _ data index k).symm
    · have empty : text.drop data = [] := drop_eq_nil_of_le (Nat.le_of_not_lt less)
      rw [if_neg less, empty]
      rfl

/-- Where the characters begin. -/
def cutOf (chars : List (List Byte)) (k : Nat) : Nat := (chars.take k).flatten.length

theorem cutOf_succ {chars : List (List Byte)} {k : Nat} (less : k < chars.length) :
    cutOf chars (k + 1) = cutOf chars k + (chars.getD k []).length := by
  rw [cutOf, cutOf, take_succ_eq_append_getElem less, flatten_append,
    length_append, flatten_singleton, getD_eq_getElem?_getD,
    getElem?_eq_getElem less, Option.getD_some]

theorem cuts_cutOf {chars : List (List Byte)} (someByte : ∀ char ∈ chars, char ≠ []) :
    Cuts chars.flatten chars.length (cutOf chars) := by
  have step : ∀ k < chars.length, cutOf chars k < cutOf chars (k + 1) := by
    intro k less
    have positive : 0 < (chars.getD k []).length := by
      rw [getD_eq_getElem?_getD, getElem?_eq_getElem less, Option.getD_some]
      exact length_pos_of_ne_nil (someByte _ (getElem_mem less))
    rw [cutOf_succ less]
    omega
  constructor
  · rfl
  · rw [cutOf, take_length]
  · intro i j less inCount
    induction less with
    | refl => exact step i inCount
    | @step j less ih =>
      exact lt_trans (ih (le_of_succ_le inCount)) (step j inCount)

theorem span_char {chars : List (List Byte)} {k : Nat} (less : k < chars.length) :
    span chars.flatten (cutOf chars k) (cutOf chars (k + 1)) = chars[k] := by
  have parts :
      chars.flatten = (chars.take k).flatten ++ (chars[k] ++ (chars.drop (k + 1)).flatten) := by
    rw [← flatten_cons, ← drop_eq_getElem_cons less, ← flatten_append, take_append_drop]
  have size : cutOf chars (k + 1) - cutOf chars k = chars[k].length := by
    rw [cutOf_succ less, Nat.add_sub_cancel_left, getD_eq_getElem?_getD,
      getElem?_eq_getElem less, Option.getD_some]
  rw [span, size, parts, cutOf, drop_left, take_left]

theorem contents_range (chars : List (List Byte)) :
    contents chars.flatten (cutOf chars) chars.length (List.range chars.length) = chars := by
  have fromPlace :
      ∀ count k, k + count = chars.length → contents chars.flatten (cutOf chars) chars.length
            (List.range' k count) = chars.drop k := by
    intro count
    induction count with
    | zero =>
      intro k atEnd
      have atEnd' : chars.length ≤ k := le_of_eq atEnd.symm
      rw [drop_eq_nil_of_le atEnd']
      rfl
    | succ count ih =>
      intro k atEnd
      have less : k < chars.length := by
        omega
      have stop : (List.range' (k + 1) count).headD chars.length = k + 1 := by
        cases count with
        | zero => exact atEnd.symm
        | succ count => rfl
      rw [range'_succ, contents, stop, span_char less,
        ih (k + 1) (by omega), ← drop_eq_getElem_cons less]
  rw [range_eq_range', fromPlace _ 0 (Nat.zero_add _), drop_zero]

/-! ## The first state -/

theorem linked_range' {prev next : Nat → Option Nat} (count first : Nat) {previous : Option Nat}
    (isNext :
      ∀ i, first ≤ i → i < first + count →
        next i = if i + 1 = first + count then none else some (i + 1))
    (isPrev :
      ∀ i, first ≤ i → i < first + count → prev i = if i = first then previous else some (i - 1)) :
    Linked prev next previous (List.range' first count) none := by
  induction count generalizing first previous with
  | zero => trivial
  | succ count ih =>
    have less : first < first + (count + 1) := Nat.lt_add_of_pos_right (Nat.succ_pos _)
    rw [range'_succ]
    refine ⟨?_, ?_, ?_⟩
    · rw [isPrev first (le_refl _) less, if_pos rfl]
    · rw [isNext first (le_refl _) less, Option.or_none]
      cases count with
      | zero => rw [if_pos rfl]; rfl
      | succ count =>
        rw [if_neg (by omega), range'_succ]
        rfl
    · apply ih (first + 1)
      · intro i atLeast inRange
        rw [isNext i (by omega) (by omega)]
        refine if_congr ?_ rfl rfl
        omega
      · intro i atLeast inRange
        rw [isPrev i (by omega) (by omega), if_neg (by omega)]
        by_cases here : i = first + 1
        · rw [if_pos here, here, Nat.add_sub_cancel]
        · rw [if_neg here]

/-- The symbols of all characters. -/
def firstSymbols (chars : List (List Byte)) (index : Nat) : Symbol :=
  ((List.range chars.length).map (symbolOf chars 0 0)).getD index
    { prev := none, next := none, piece := { data := 0, size := 0 } }

theorem firstSymbols_of_lt {chars : List (List Byte)} {index : Nat} (less : index < chars.length) :
    firstSymbols chars index = symbolOf chars 0 0 index := by
  rw [firstSymbols, getD_eq_getElem?_getD, getElem?_map, getElem?_range less]
  rfl

theorem firstSymbols_of_ge
    {chars : List (List Byte)} {index : Nat} (outside : chars.length ≤ index) :
    firstSymbols chars index =
      { prev := none, next := none, piece := { data := 0, size := 0 } } := by
  rw [firstSymbols, getD_eq_getElem?_getD, getElem?_eq_none]
  · rfl
  · rwa [length_map, length_range]

theorem range_split {count i : Nat} {before after : List Nat}
    (isRange : List.range count = before ++ i :: after) :
    before.length = i ∧ i < count ∧ after.headD count = i + 1 := by
  have at' : ∀ k : Nat, (before ++ i :: after)[k]? = (List.range count)[k]? := by
    intro k
    rw [isRange]
  have lengths := congrArg List.length isRange
  rw [length_range, length_append, length_cons] at lengths
  have here := at' before.length
  rw [getElem?_append_right (Nat.le_refl _), Nat.sub_self,
    getElem?_cons_zero, getElem?_range (by omega)] at here
  have place : before.length = i := (Option.some.inj here).symm
  refine ⟨place, by omega, ?_⟩
  cases after with
  | nil =>
    rw [length_nil] at lengths
    show count = i + 1
    omega
  | cons next rest =>
    have later := at' (before.length + 1)
    rw [length_cons] at lengths
    rw [getElem?_append_right (Nat.le_add_right _ 1), Nat.add_sub_cancel_left, getElem?_cons_succ,
      getElem?_cons_zero, getElem?_range (by omega), place] at later
    exact Option.some.inj later

theorem threads_firstSymbols (chars : List (List Byte)) :
    Threads chars.length (cutOf chars) (firstSymbols chars) (List.range chars.length) := by
  constructor
  · exact pairwise_lt_range
  · exact fun i member => mem_range.mp member
  · rw [range_eq_range']
    apply linked_range'
    · intro i _ less
      rw [Nat.zero_add] at less
      rw [firstSymbols_of_lt less]
      simp only [symbolOf, Nat.zero_add]
    · intro i _ less
      rw [Nat.zero_add] at less
      rw [firstSymbols_of_lt less]
      simp only [symbolOf, Nat.zero_add]
  · intro i
    by_cases less : i < chars.length
    · rw [firstSymbols_of_lt less]
      rfl
    · rw [firstSymbols_of_ge (Nat.le_of_not_lt less)]
  · intro before i after isRange
    rcases range_split isRange with ⟨-, less, stop⟩
    rw [firstSymbols_of_lt less, stop, cutOf_succ less, Nat.add_sub_cancel_left]
    simp only [symbolOf, cutOf, Nat.zero_add]
  · intro i notLive
    rw [mem_range, not_lt] at notLive
    rw [firstSymbols_of_ge notLive]

variable {Score : Type*} {sentencepiece : Sentencepiece Score}

theorem agrees_start {chars : List (List Byte)} (someByte : ∀ char ∈ chars, char ≠ []) :
    Agrees sentencepiece chars.flatten chars.length (cutOf chars) (sentencepiece.start chars.flatten
          ((List.range chars.length).map (symbolOf chars 0 0)))
        (List.range chars.length) All ∧
      (sentencepiece.start chars.flatten ((List.range chars.length).map
            (symbolOf chars 0 0))).agenda.length ≤ chars.length - 1 := by
  have cuts := cuts_cutOf someByte
  have prefixAgrees :
      ∀ count ≤ chars.length - 1,
        let state :=
          (List.range count).foldl (fun state i =>
              sentencepiece.maybeAddNewSymbolPair chars.flatten state (some i) (some (i + 1)))
            { symbols := firstSymbols chars
              agenda := []
              rev_merge := fun _ => none }
        Agrees sentencepiece chars.flatten chars.length (cutOf chars) state
            (List.range chars.length) (fun i _ => i < count) ∧
          state.agenda.length ≤ count := by
    intro count countLe
    induction count with
    | zero =>
      refine ⟨?_, le_refl 0⟩
      constructor
      · exact threads_firstSymbols chars
      · exact fun _ member => nomatch member
      · exact fun _ _ _ _ _ impossible => absurd impossible (not_lt_zero _)
      · exact fun _ _ _ impossible => nomatch impossible
    | succ count ih =>
      rcases ih (le_of_succ_le countLe) with ⟨agrees, length⟩
      simp only [range_succ, foldl_append, foldl_cons, foldl_nil]
      constructor
      · have isRange :
            List.range chars.length = List.range count ++
                count :: (count + 1) :: List.range' (count + 2) (chars.length - (count + 2)) := by
          have total : count + (chars.length - (count + 2) + 2) = chars.length := by
            omega
          have parts := @List.range'_append_1 0 count (chars.length - (count + 2) + 2)
          rw [Nat.zero_add, total, range'_succ, range'_succ] at parts
          rw [range_eq_range', range_eq_range']
          exact parts.symm
        refine (agrees.maybeAddNewSymbolPair cuts ?_).weaken ?_
        · rintro i j ⟨⟩ ⟨⟩
          exact ⟨_, _, isRange⟩
        · intro before i j after isRange' less
          rcases range_split isRange' with ⟨-, -, stop⟩
          rcases Nat.lt_succ_iff_lt_or_eq.mp less with earlier | rfl
          · exact Or.inl earlier
          · exact Or.inr ⟨rfl, congrArg some stop.symm⟩
      · exact (maybeAddNewSymbolPair_length _ _ _).trans (succ_le_succ length)
  rcases prefixAgrees (chars.length - 1) (le_refl _) with ⟨agrees, length⟩
  have isStart : sentencepiece.start chars.flatten
          ((List.range chars.length).map (symbolOf chars 0 0)) =
        (List.range (chars.length - 1)).foldl (fun state i =>
            sentencepiece.maybeAddNewSymbolPair chars.flatten state (some i) (some (i + 1)))
          { symbols := firstSymbols chars
            agenda := []
            rev_merge := fun _ => none } := by
    rw [start, length_map, length_range]
    rfl
  rw [isStart]
  refine ⟨agrees.weaken ?_, length⟩
  intro before i j after isRange _
  rcases range_split isRange with ⟨place, -, -⟩
  have lengths := congrArg List.length isRange
  rw [length_range, length_append, length_cons, length_cons] at lengths
  show i < chars.length - 1
  omega

/-! ## The pieces -/

/-- What a piece is taken apart into. -/
structure Resegmented
    (sentencepiece : Sentencepiece Score) (piece : List Byte)
    (parts : List (List Byte × Nat)) : Prop where
  flatten : (parts.map Prod.fst).flatten = piece
  whole :
    (∀ id, sentencepiece.pieces_ piece = some id → sentencepiece.is_unused id = false) →
      parts = [(piece, sentencepiece.piece_to_id piece)]

/-- A piece is taken apart into shorter ones, and they make it up. -/
theorem resegment_spec {rev_merge : List Byte → Option (View × View)}
    (remembers : Remembers sentencepiece text rev_merge) {fuel : Nat}
    {w : List Byte} (enough : w.length < fuel) :
    ∃ parts, resegment sentencepiece text rev_merge fuel w = some parts ∧
      Resegmented sentencepiece w parts := by
  induction fuel generalizing w with
  | zero => cases enough
  | succ fuel ih =>
    have whole : Resegmented sentencepiece w [(w, sentencepiece.piece_to_id w)] := by
      constructor
      · exact append_nil w
      · exact fun _ => rfl
    unfold resegment
    simp only
    by_cases isUsed : sentencepiece.is_unused (sentencepiece.piece_to_id w) = true
    · rw [if_neg (not_not_intro isUsed)]
      cases isParts : rev_merge w with
      | none => exact ⟨_, rfl, whole⟩
      | some parts =>
        rcases parts with ⟨first, second⟩
        rcases remembers w first second isParts with
          ⟨joined, someFirst, someSecond, id, isPiece, isUnused⟩
        have lengths := congrArg List.length joined
        rw [length_append] at lengths
        have firstPositive := length_pos_of_ne_nil someFirst
        have secondPositive := length_pos_of_ne_nil someSecond
        rcases @ih (first.bytes text) (by omega) with
          ⟨left, isLeft, leftParts⟩
        rcases @ih (second.bytes text) (by omega) with
          ⟨right, isRight, rightParts⟩
        refine ⟨left ++ right, ?_, ?_⟩
        · simp only [isLeft, isRight]
          rfl
        · constructor
          · rw [map_append, flatten_append, leftParts.flatten, rightParts.flatten, joined]
          · intro noneUnused
            rw [noneUnused id isPiece] at isUnused
            nomatch isUnused
    · rw [if_pos isUsed]
      exact ⟨_, rfl, whole⟩

/-- The symbols that are left are taken apart one after the other. -/
theorem collect_spec {count : Nat} {cut : Nat → Nat} {state : BpeState Score} {live : List Nat}
    (agrees : Agrees sentencepiece text count cut state live All)
    {fuel : Nat} (enough : text.length < fuel) {front rest : List Nat}
    (isLive : live = front ++ rest) {steps : Nat} (enoughSteps : rest.length ≤ steps) :
    ∃ parts, collect sentencepiece text state fuel steps rest.head? =
          some parts.flatten ∧
        List.Forall₂ (Resegmented sentencepiece) (contents text cut count rest) parts := by
  induction rest generalizing front steps with
  | nil =>
    refine ⟨[], ?_, List.Forall₂.nil⟩
    cases steps <;> rfl
  | cons i rest ih =>
    cases steps with
    | zero => exact absurd enoughSteps (not_succ_le_zero _)
    | succ steps =>
      have isNext : (state.symbols i).next = rest.head? := by
        have linked := agrees.threads.linked
        rw [isLive] at linked
        have next := linked.right_eq
        rwa [Option.or_none] at next
      have isPiece :
          (state.symbols i).piece.bytes text = span text (cut i) (cut (rest.headD count)) := by
        rw [agrees.threads.piece front i rest isLive]
        rfl
      have shorter : (span text (cut i) (cut (rest.headD count))).length < fuel := by
        refine lt_of_le_of_lt ?_ enough
        rw [span, length_take, length_drop]
        omega
      rcases resegment_spec agrees.remembers shorter with
        ⟨here, isHere, resegmented⟩
      rcases ih (isLive.trans (append_cons ..)) (le_of_succ_le_succ enoughSteps) with
        ⟨later, isLater, resegmentedLater⟩
      refine ⟨here :: later, ?_, resegmentedLater.cons resegmented⟩
      rw [head?_cons, collect]
      simp only [isPiece, isHere, isNext, isLater]
      rfl

theorem flatten_resegmented {pieces : List (List Byte)} {parts : List (List (List Byte × Nat))}
    (resegmented : List.Forall₂ (Resegmented sentencepiece) pieces parts) :
    (parts.flatten.map Prod.fst).flatten = pieces.flatten := by
  induction resegmented with
  | nil => rfl
  | cons here later ih =>
    rw [flatten_cons, map_append, flatten_append, flatten_cons, here.flatten, ih]

variable [LinearOrder Score]

/-- The output, when there is enough fuel for each symbol to be merged. -/
theorem bpe_encode_pieces (sentencepiece : Sentencepiece Score)
    (queue : PriorityQueue (SymbolPair Score) SymbolPair.Less) (normalized : List Byte) {fuel : Nat}
    (enough : 4 * (characters normalized.length normalized).length + normalized.length + 1 ≤ fuel) :
    ∃ output pieces parts, bpe_encode sentencepiece queue fuel normalized = some output ∧
        Merges sentencepiece.scoreOf (characters normalized.length normalized) pieces ∧
        List.Forall₂ (Resegmented sentencepiece) pieces parts ∧
        output = parts.flatten ∧
        (output.map Prod.fst).flatten = normalized := by
  let chars := characters normalized.length normalized
  have isText : chars.flatten = normalized := flatten_characters (le_refl _)
  have someByte : ∀ char ∈ chars, char ≠ [] := fun char member => characters_ne_nil member
  have cuts := cuts_cutOf someByte
  have isSymbols :
      splitSymbols normalized normalized.length 0 0 =
        (List.range chars.length).map (symbolOf chars 0 0) := by
    have symbols := @splitSymbols_eq normalized normalized.length 0 0 (sub_le ..)
    rwa [drop_zero] at symbols
  rcases @agrees_start Score sentencepiece chars someByte with
    ⟨agrees, length⟩
  rw [isText] at cuts agrees length
  have enough : 4 * chars.length + normalized.length + 1 ≤ fuel := enough
  unfold bpe_encode
  simp only [isSymbols]
  by_cases empty : chars = []
  · have noSymbols : ((List.range chars.length).map (symbolOf chars 0 0)).isEmpty = true := by
      rw [empty]
      rfl
    rw [if_pos noSymbols]
    refine ⟨[], chars, [], rfl, ?_, ?_, rfl, ?_⟩
    · apply Merges.done
      intro before left right after isPair
      have lengths := congrArg List.length (empty.symm.trans isPair)
      rw [length_append, length_cons] at lengths
      exact absurd lengths (by rw [length_nil]; omega)
    · rw [empty]
      exact List.Forall₂.nil
    · rw [← isText, empty]
      rfl
  · have positive := length_pos_of_ne_nil empty
    have someSymbol : ¬((List.range chars.length).map (symbolOf chars 0 0)).isEmpty = true := by
      rw [List.isEmpty_iff, map_eq_nil_iff, range_eq_nil]
      exact ne_of_gt positive
    have isFirst : (List.range chars.length).head? = some 0 := by
      rw [← succ_pred_eq_of_pos positive, range_succ_eq_map]
      rfl
    have enoughMain : (sentencepiece.start normalized ((List.range chars.length).map
                  (symbolOf chars 0 0))).agenda.length +
            3 * (List.range chars.length).length < fuel := by
      rw [length_range]
      omega
    rw [if_neg someSymbol]
    rcases mainLoop_merges cuts queue agrees enoughMain with
      ⟨final, live, isFinal, agreesFinal, sameHead, merges⟩
    have fewer : live.length ≤ chars.length := by
      have subset : live ⊆ List.range chars.length := fun i member =>
        mem_range.mpr (agreesFinal.threads.bounded i member)
      have smaller := (List.Nodup.subperm agreesFinal.threads.nodup subset).length_le
      rwa [length_range] at smaller
    have enoughText : normalized.length < fuel := by
      omega
    have enoughSteps : live.length ≤ fuel := by
      omega
    rcases collect_spec agreesFinal enoughText (nil_append live).symm enoughSteps with
      ⟨parts, isOutput, resegmented⟩
    rw [sameHead, isFirst] at isOutput
    have isChars := contents_range chars
    rw [isText] at isChars
    rw [isChars] at merges
    refine ⟨parts.flatten, _, parts, ?_, merges, resegmented, rfl, ?_⟩
    · rw [isFinal]
      exact isOutput
    · rw [flatten_resegmented resegmented, merges.flatten]
      exact isText

end Sentencepiece

end Mnn.Llm
