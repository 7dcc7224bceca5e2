import Mnn.Llm.AddedTokens
import Mnn.Llm.ByteLevelLossless
import Mnn.Llm.SpecialSplit

/-!
# When the two splits agree

The split at the special tokens cuts the text before the added tokens are sought in it.
The ids are those of the whole text if the two splits stay in step: behind each cut both
meet the same tokens, and have only stripped the same white space.
-/

variable {pair : Text × Int}

namespace Mnn.Mtok

open Mnn.Foundation BitFields ByteReader Occurrences
open List
open Option
open Nat

variable {place place' size : Nat} {token : AddedToken} {content whole : Text} {pieces : List Piece}

/-! ## The next special token -/

/-- The special token that is found first, and where it is. -/
def nextSpecial (special_tokens_cache_ : List (Text × Int)) : Text → Option (Nat × Text × Int)
  | [] => none
  | c :: rest =>
    match specialAt special_tokens_cache_ (c :: rest) 0 with
    | some pair => some (0, pair)
    | none => (nextSpecial special_tokens_cache_ rest).map fun cut =>
      (cut.1 + 1, cut.2)

/-- The end of what lies in front of the next special token. -/
def cutPlace (special_tokens_cache_ : List (Text × Int)) (text : Text) : Nat :=
  match nextSpecial special_tokens_cache_ text with
  | some (place, _) => place
  | none => text.length

/-- Both splits meet the same tokens behind their places in the text: the first text is
what is left to the split at the special tokens, the second one what is left to the split
of the whole text. -/
inductive InStep (special_tokens_cache_ : List (Text × Int))
    (added_tokens : List AddedToken) : Text → Text → Prop
  /-- No special token is left. -/
  | rest {text : Text} :
      nextSpecial special_tokens_cache_ text = none →
        InStep special_tokens_cache_ added_tokens text text
  /-- Both find the same added token in front of the next special token.  If one of them
  has stripped white space in front of it before, the other one strips it now. -/
  | added {text whole : Text} {place place' : Nat} {token : AddedToken} :
      firstAdded added_tokens (text.take (cutPlace special_tokens_cache_ text)) =
          some (place, token) →
        firstAdded added_tokens whole = some (place', token) →
        text.drop place = whole.drop place' →
        (whole = text ∨ (token.lstrip ∧ place' = 0)) →
        InStep special_tokens_cache_ added_tokens (text.drop (token.nextStart
            (text.take (cutPlace special_tokens_cache_ text)) place))
          (whole.drop (token.nextStart whole place')) →
        InStep special_tokens_cache_ added_tokens text whole
  /-- The next special token is the first added token, with its id, and strips nothing
  in front of it. -/
  | cut {text : Text} {place : Nat} {token : AddedToken} :
      nextSpecial special_tokens_cache_ text = some (place, token.content, token.id) →
        firstAdded added_tokens text = some (place, token) →
        token.prefixEnd text place = place →
        InStep special_tokens_cache_ added_tokens (text.drop (place + token.content.length))
          (text.drop (token.nextStart text place)) →
        InStep special_tokens_cache_ added_tokens text text

section Special

variable {special_tokens_cache_ : List (Text × Int)} {text : Text}

theorem specialAt_drop {start : Nat} (inside : start ≤ text.length) (i : Nat) :
    specialAt special_tokens_cache_ (text.drop start) i =
      specialAt special_tokens_cache_ text (start + i) := by
  have same : ∀ size, i + size ≤ text.length - start ↔ start + i + size ≤ text.length := by
    omega
  simp only [specialAt, length_drop, drop_drop, same]

theorem nextSpecial_eq_some :
    nextSpecial special_tokens_cache_ text = some (place, pair) ↔
      place < text.length ∧ specialAt special_tokens_cache_ text place = some pair ∧
        ∀ i < place, specialAt special_tokens_cache_ text i = none := by
  induction text generalizing place with
  | nil =>
    constructor
    · exact nofun
    · exact fun impossible => absurd impossible.1 (not_lt_zero place)
  | cons c rest ih =>
    have behind : ∀ i, specialAt special_tokens_cache_ (c :: rest) (i + 1) =
        specialAt special_tokens_cache_ rest i := fun i => by
      rw [add_comm]
      exact (@specialAt_drop _ (c :: rest) 1 (le_add_left 1 _) i).symm
    rw [nextSpecial]
    cases here : specialAt special_tokens_cache_ (c :: rest) 0 with
    | some found =>
      constructor
      · intro same
        obtain ⟨rfl, rfl⟩ := Prod.mk.inj (some.inj same)
        exact ⟨succ_pos _, here, fun i less => absurd less (not_lt_zero i)⟩
      · rintro ⟨-, isPair, none⟩
        cases place with
        | zero => rw [← here, isPair]
        | succ place => nomatch here.symm.trans (none 0 (succ_pos _))
    | none =>
      rw [map_eq_some_iff]
      constructor
      · rintro ⟨⟨i, found⟩, isNext, same⟩
        obtain ⟨rfl, rfl⟩ := Prod.mk.inj same
        obtain ⟨inside, isPair, none⟩ := ih.mp isNext
        refine ⟨succ_lt_succ inside, (behind i).trans isPair, fun j less => ?_⟩
        cases j with
        | zero => exact here
        | succ j => exact (behind j).trans (none j (lt_of_succ_lt_succ less))
      · rintro ⟨inside, isPair, none⟩
        cases place with
        | zero => nomatch here.symm.trans isPair
        | succ place =>
          exact ⟨(place, pair), ih.mpr ⟨lt_of_succ_lt_succ inside,
            (behind place).symm.trans isPair, fun i less =>
              (behind i).symm.trans (none (i + 1) (succ_lt_succ less))⟩, rfl⟩

theorem nextSpecial_eq_none :
    nextSpecial special_tokens_cache_ text = none ↔
      ∀ i < text.length, specialAt special_tokens_cache_ text i = none := by
  constructor
  · intro isNone i inside
    induction i using Nat.strongRecOn with
    | ind i ih =>
      by_contra isSome
      obtain ⟨pair, isPair⟩ := ne_none_iff_exists'.mp isSome
      have isNext := nextSpecial_eq_some.mpr ⟨inside, isPair, fun j less =>
        ih j less (lt_trans less inside)⟩
      nomatch isNone.symm.trans isNext
  · intro absent
    rw [eq_none_iff_forall_ne_some]
    rintro ⟨place, pair⟩ isNext
    obtain ⟨inside, isPair, -⟩ := nextSpecial_eq_some.mp isNext
    nomatch (absent place inside).symm.trans isPair

theorem nextSpecial_drop {start : Nat}
    (isNext : nextSpecial special_tokens_cache_ text = some (place, pair)) (le : start ≤ place) :
    nextSpecial special_tokens_cache_ (text.drop start) = some (place - start, pair) := by
  obtain ⟨inside, isPair, none⟩ := nextSpecial_eq_some.mp isNext
  have inside' : start ≤ text.length := le_of_lt (lt_of_le_of_lt le inside)
  refine nextSpecial_eq_some.mpr ⟨?_, ?_, fun i less => ?_⟩
  · rw [length_drop]
    omega
  · rw [specialAt_drop inside', Nat.add_sub_cancel' le, isPair]
  · rw [specialAt_drop inside']
    exact none (start + i) (by omega)

theorem nextSpecial_drop_none (isNone : nextSpecial special_tokens_cache_ text = none)
    (start : Nat) : nextSpecial special_tokens_cache_ (text.drop start) = none := by
  refine nextSpecial_eq_none.mpr fun i less => ?_
  rw [length_drop] at less
  rw [specialAt_drop (by omega)]
  exact nextSpecial_eq_none.mp isNone (start + i) (by omega)

theorem specialAt_eq_some {i : Nat} {token : Text} {special_id : Int}
    (found : specialAt special_tokens_cache_ text i = some (token, special_id)) :
    (token, special_id) ∈ special_tokens_cache_ ∧
      i + token.length ≤ text.length ∧ strncmpEq (text.drop i) token = true := by
  have holds := find?_some found
  rw [decide_eq_true_iff] at holds
  exact ⟨mem_of_find?_eq_some found, holds⟩

end Special

section

variable {text token : Text} (same : strncmpEq text token = true)
  (fits : token.length ≤ text.length)

include same fits

theorem strncmpEq_head? (some : token ≠ []) : text.head? = token.head? := by
  cases token with
  | nil => exact absurd rfl some
  | cons c token =>
    cases text with
    | nil => exact absurd fits (not_succ_le_zero _)
    | cons x text =>
      rw [strncmpEq, decide_eq_true_iff] at same
      exact congrArg Option.some same.1

theorem prefix_or_nul_of_strncmpEq :
    token <+: text ∨ ∃ k : Nat, (∀ i ≤ k, text[i]? = token[i]?) ∧
      token[k]? = some 0 ∧ ∀ i < k, token[i]? ≠ some 0 := by
  induction token generalizing text with
  | nil => exact Or.inl nil_prefix
  | cons c token ih =>
    cases text with
    | nil => exact absurd fits (not_succ_le_zero _)
    | cons x text =>
      rw [strncmpEq, decide_eq_true_iff] at same
      obtain ⟨rfl, same⟩ := same
      by_cases isNul : x = 0
      · refine Or.inr ⟨0, fun i le => ?_, ?_, fun i less => absurd less (not_lt_zero i)⟩
        · rw [le_zero.mp le]
          rfl
        · rw [isNul]
          rfl
      · rcases ih (same.resolve_left isNul) (le_of_succ_le_succ fits) with
          isPrefix | ⟨k, agree, nul, notNul⟩
        · exact Or.inl (cons_prefix_cons.mpr ⟨rfl, isPrefix⟩)
        · refine Or.inr ⟨k + 1, fun i le => ?_, nul, fun i less => ?_⟩
          · cases i with
            | zero => rfl
            | succ i => exact agree i (le_of_succ_le_succ le)
          · cases i with
            | zero => exact fun impossible => isNul (some.inj impossible)
            | succ i => exact notNul i (lt_of_succ_lt_succ less)

end

/-- If the token itself comes behind white space, it is found in front of it. -/
theorem prefix_of_strncmpEq {text token : Text} {gap : Nat}
    (same : strncmpEq text token = true) (fits : token.length ≤ text.length)
    (behind : token <+: text.drop gap) (blank : ∀ i < gap, isspace (text.getD i 0) = true) :
    token <+: text := by
  rcases prefix_or_nul_of_strncmpEq same fits with isPrefix | ⟨k, agree, nul, notNul⟩
  · exact isPrefix
  · have textNul : text[k]? = some 0 := (agree k (le_refl k)).trans nul
    have le : gap ≤ k := by
      by_contra less
      have isSpace := blank k (Nat.lt_of_not_le less)
      rw [getD_eq_getElem?_getD, textNul] at isSpace
      exact absurd isSpace (by decide)
    cases gap with
    | zero => exact behind
    | succ gap =>
      -- the NUL also is a byte of the second occurrence, further to the front
      obtain ⟨rest, isRest⟩ := behind
      have inside : k < token.length := (List.getElem?_eq_some_iff.mp nul).1
      have other : token[k - (gap + 1)]? = some 0 := by
        rw [← textNul, ← Nat.add_sub_cancel' le, ← getElem?_drop, ← isRest,
          Nat.add_sub_cancel_left, getElem?_append_left (by omega)]
      exact absurd other (notNul _ (by omega))

/-! ## What the split at the special tokens hands on -/

def plainPieces (text : Text) : List Piece :=
  if text = [] then [] else [.text text]

theorem map_plainUnits (added_tokens : List AddedToken) (text : Text) :
    (plainUnits text).map (unitPiece added_tokens) = plainPieces text := by
  unfold plainUnits plainPieces
  split
  · rfl
  · rfl

theorem FirstAdded.unitPiece {added_tokens : List AddedToken} {text : Text}
    (isFirst : FirstAdded added_tokens text place token) :
    unitPiece added_tokens (token.content, true) = .token token.content [token.id] := by
  rw [Mtok.unitPiece, if_pos rfl, isFirst.first]

theorem addedPieces_eq (added_tokens : List AddedToken) (text : Text) :
    addedPieces added_tokens text =
      match firstAdded added_tokens text with
      | none => plainPieces text
      | some (place, token) =>
        plainPieces (text.take (token.prefixEnd text place)) ++ .token token.content [token.id] ::
            addedPieces added_tokens (text.drop (token.nextStart text place)) := by
  show (unitsOf added_tokens text).map (Mtok.unitPiece added_tokens) = _
  rw [unitsOf_eq]
  cases isFirst : firstAdded added_tokens text with
  | none => exact map_plainUnits added_tokens text
  | some first =>
    obtain ⟨place, token⟩ := first
    dsimp only
    rw [map_append, map_cons, map_plainUnits, (firstAdded_eq_some.mp isFirst).unitPiece]
    rfl

/-- The pieces of a text, one token after the other. -/
inductive Handed (special_tokens_cache_ : List (Text × Int))
    (added_tokens : List AddedToken) : Text → List Piece → Prop
  | finish {text : Text} :
      nextSpecial special_tokens_cache_ text = none → firstAdded added_tokens text = none →
        Handed special_tokens_cache_ added_tokens text (plainPieces text)
  | added {text front : Text} {place : Nat} {token : AddedToken} {pieces : List Piece} :
      front = text.take (cutPlace special_tokens_cache_ text) →
        firstAdded added_tokens front = some (place, token) →
        Handed special_tokens_cache_ added_tokens (text.drop (token.nextStart front place)) pieces →
        Handed special_tokens_cache_ added_tokens text
          (plainPieces (front.take (token.prefixEnd front place)) ++
            .token token.content [token.id] :: pieces)
  | cut {text : Text} {place : Nat} {content : Text} {special_id : Int} {pieces : List Piece} :
      nextSpecial special_tokens_cache_ text = some (place, content, special_id) →
        firstAdded added_tokens (text.take place) = none →
        Handed special_tokens_cache_ added_tokens (text.drop (place + content.length)) pieces →
        Handed special_tokens_cache_ added_tokens text
          (plainPieces (text.take place) ++ .token content [special_id] :: pieces)

section Handed

variable {special_tokens_cache_ : List (Text × Int)} {added_tokens : List AddedToken} {text : Text}

theorem length_drop_nextStart {front : Text} (isFront : front <+: text)
    (isFirst : firstAdded added_tokens front = some (place, token)) :
    (text.drop (token.nextStart front place)).length < text.length := by
  have best := (firstAdded_eq_some.mp isFirst).best
  have inside := best.occurs.length_le best.some
  have positive := length_pos_of_ne_nil best.some
  have forward := token.le_nextStart front place
  have le := isFront.length_le
  rw [length_drop]
  omega

/-- Without a special token, the split at the added tokens is all there is. -/
theorem Handed.of_none (isNone : nextSpecial special_tokens_cache_ text = none) :
    Handed special_tokens_cache_ added_tokens text (addedPieces added_tokens text) := by
  induction size : text.length using Nat.strongRecOn generalizing text with
  | ind size ih =>
    have whole : text = text.take (cutPlace special_tokens_cache_ text) := by
      rw [cutPlace, isNone]
      exact text.take_length.symm
    rw [addedPieces_eq]
    cases isFirst : firstAdded added_tokens text with
    | none => exact .finish isNone isFirst
    | some first =>
      obtain ⟨place, token⟩ := first
      have shorter := length_drop_nextStart prefix_rfl isFirst
      exact .added whole isFirst (ih _ (size ▸ shorter) (nextSpecial_drop_none isNone _) rfl)

/-- The added tokens in front of a special token, and what comes behind it. -/
theorem Handed.of_some {special_id : Int}
    (isNext : nextSpecial special_tokens_cache_ text = some (place, content, special_id))
    (others : Handed special_tokens_cache_ added_tokens
      (text.drop (place + content.length)) pieces) :
    Handed special_tokens_cache_ added_tokens text (addedPieces added_tokens (text.take place) ++
        .token content [special_id] :: pieces) := by
  induction size : text.length using Nat.strongRecOn generalizing text place with
  | ind size ih =>
    have isFront : text.take place = text.take (cutPlace special_tokens_cache_ text) := by
      rw [cutPlace, isNext]
    rw [addedPieces_eq]
    cases isFirst : firstAdded added_tokens (text.take place) with
    | none => exact .cut isNext isFirst others
    | some first =>
      obtain ⟨place', token⟩ := first
      have shorter := length_drop_nextStart ( take_prefix ..) isFirst
      have inside : token.nextStart (text.take place) place' ≤ place :=
        le_trans (firstAdded_eq_some.mp isFirst).nextStart_le (length_take_le ..)
      dsimp only
      rw [append_assoc, cons_append]
      refine .added isFront isFirst ?_
      rw [drop_take]
      refine ih _ (size ▸ shorter) (nextSpecial_drop isNext inside) ?_ rfl
      rw [drop_drop]
      rwa [← add_assoc, Nat.add_sub_cancel' inside]

/-- The loop of `encode`, which has found no special token since `start`. -/
theorem handed_splitSpecials {fuel start i : Nat}
    (isToken : ∀ pair ∈ special_tokens_cache_, pair.1 ≠ [])
    (le : start ≤ i) (inside : i ≤ text.length) (enough : text.length < i + fuel)
    (absent : ∀ j, start ≤ j → j < i → specialAt special_tokens_cache_ text j = none) :
    Handed special_tokens_cache_ added_tokens (text.drop start)
      ((splitSpecials special_tokens_cache_ text fuel start i).flatMap
        (segmentPieces added_tokens)) := by
  induction fuel generalizing start i with
  | zero => exact absurd enough (Nat.not_lt_of_le inside)
  | succ fuel ih =>
    have absentBehind : ∀ j < i - start,
        specialAt special_tokens_cache_ (text.drop start) j = none := fun j less => by
      rw [specialAt_drop (le_trans le inside)]
      exact absent (start + j) (Nat.le_add_right ..) (by omega)
    rw [splitSpecials]
    by_cases more : i < text.length
    · rw [if_pos more]
      cases isSpecial : specialAt special_tokens_cache_ text i with
      | none =>
        refine ih (le_succ_of_le le) more (by omega) fun j le' less => ?_
        rcases lt_or_eq_of_le (le_of_lt_succ less) with less | rfl
        · exact absent j le' less
        · exact isSpecial
      | some pair =>
        obtain ⟨token, special_id⟩ := pair
        obtain ⟨member, fits, -⟩ := specialAt_eq_some isSpecial
        have positive : 0 < token.length := length_pos_of_ne_nil (isToken _ member)
        have isNext : nextSpecial special_tokens_cache_ (text.drop start) =
            some (i - start, token, special_id) := by
          refine nextSpecial_eq_some.mpr ⟨?_, ?_, absentBehind⟩
          · rw [length_drop]
            omega
          · rw [specialAt_drop (le_trans le inside), Nat.add_sub_cancel' le, isSpecial]
        have front : (if start < i then
              [Segment.text (Cutting.slice text start i)] else []).flatMap
            (segmentPieces added_tokens) =
              addedPieces added_tokens ((text.drop start).take (i - start)) := by
          split
          · rw [flatMap_singleton]
            rfl
          · rw [Nat.sub_eq_zero_of_le (by omega), take_zero]
            rfl
        rw [flatMap_append, flatMap_cons, front]
        refine Handed.of_some isNext ?_
        rw [drop_drop, ← add_assoc, Nat.add_sub_cancel' le]
        exact ih (le_refl _) fits (by omega)
          fun j le' less => absurd less (Nat.not_lt_of_le le')
    · rw [if_neg more]
      have isNone : nextSpecial special_tokens_cache_ (text.drop start) = none := by
        refine nextSpecial_eq_none.mpr fun j less => absentBehind j ?_
        rw [length_drop] at less
        omega
      have last : (if start < text.length then
            [Segment.text (text.drop start)] else []).flatMap
          (segmentPieces added_tokens) = addedPieces added_tokens (text.drop start) := by
        split
        · rw [flatMap_singleton]
          rfl
        · rw [drop_eq_nil_of_le (by omega)]
          rfl
      rw [last]
      exact Handed.of_none isNone

theorem nextSpecial_nil_cache (text : Text) : nextSpecial [] text = none :=
  nextSpecial_eq_none.mpr fun _ _ => rfl

theorem handed_specialPieces (isToken : ∀ pair ∈ special_tokens_cache_, pair.1 ≠ []) (text : Text) :
    Handed special_tokens_cache_ added_tokens text
      (specialPieces special_tokens_cache_ added_tokens text) := by
  unfold specialPieces
  split
  · rename_i none
    rw [none]
    exact Handed.of_none (nextSpecial_nil_cache text)
  · exact handed_splitSpecials isToken (le_refl 0) (zero_le _) (by omega)
      fun j _ less => absurd less (not_lt_zero j)

end Handed

/-! ## White space that one split has stripped -/

theorem dropWhile_drop_takeWhile {α : Type} (p : α → Bool) (values : List α) (size : Nat) :
    (values.drop ((values.take size).takeWhile p).length).dropWhile p = values.dropWhile p := by
  induction values generalizing size with
  | nil => rw [drop_nil]
  | cons value values ih =>
    cases size with
    | zero => rfl
    | succ size =>
      rw [take_succ_cons, takeWhile_cons]
      by_cases holds : p value = true
      · rw [if_pos holds, length_cons, drop_succ_cons, ih, dropWhile_cons_of_pos holds]
      · rw [if_neg holds]
        rfl

theorem dropWhile_eq_drop {text : Text} (blank : ∀ i < place, isspace (text.getD i 0) = true)
    (ends : ∀ c, (text.drop place).head? = some c → isspace c = false) :
    text.dropWhile isspace = text.drop place := by
  induction place generalizing text with
  | zero =>
    cases text with
    | nil => rfl
    | cons c text =>
      have notSpace := ends c rfl
      exact dropWhile_cons_of_neg (by rw [notSpace]; exact Bool.false_ne_true)
  | succ place ih =>
    cases text with
    | nil => rfl
    | cons c text =>
      have isSpace : isspace c = true := blank 0 (succ_pos place)
      rw [dropWhile_cons_of_pos isSpace]
      exact ih (fun i less => blank (i + 1) (succ_lt_succ less)) ends

/-- The split of the whole text may have stripped white space which is left to the
split at the special tokens. -/
def Lag (text whole : Text) : Prop := whole = text ∨ whole = text.dropWhile isspace

/-- If the texts differ, one begins with white space and the other one does not. -/
theorem Lag.cases {text : Text} (lag : Lag text whole) :
    whole = text ∨ (whole = text.dropWhile isspace ∧ (∃ c, text.head? = some c ∧ isspace c = true) ∧
        ∀ c, whole.head? = some c → isspace c = false) := by
  rcases lag with same | same
  · exact Or.inl same
  · cases text with
    | nil => exact Or.inl same
    | cons c rest =>
      by_cases isSpace : isspace c = true
      · refine Or.inr ⟨same, ⟨c, rfl, isSpace⟩, fun d isHead => ?_⟩
        have notSpace := head?_dropWhile_not isspace (c :: rest)
        rw [← same, isHead] at notSpace
        exact notSpace
      · exact Or.inl (same.trans (dropWhile_cons_of_neg isSpace))

/-- Behind the same token, no more than white space has been stripped. -/
theorem Lag.nextStart {text : Text}
    (same : text.drop place = whole.drop place') (token : AddedToken) (size : Nat) :
    Lag (text.drop (token.nextStart (text.take size) place))
      (whole.drop (token.nextStart whole place')) := by
  have behind : text.drop (place + token.content.length) =
      whole.drop (place' + token.content.length) := by
    rw [← drop_drop, ← drop_drop, same]
  unfold AddedToken.nextStart
  by_cases strips : token.rstrip = true
  · rw [if_pos strips, if_pos strips, drop_skipSpaces, ← behind]
    right
    generalize place + token.content.length = next
    have shifted : text.drop (skipSpaces (text.take size) next) =
        (text.drop next).drop (((text.drop next).take (size - next)).takeWhile isspace).length := by
      rw [skipSpaces, drop_drop, drop_take]
    rw [shifted, dropWhile_drop_takeWhile]
  · rw [if_neg strips, if_neg strips, behind]
    exact Or.inl rfl

theorem plainPieces_append_inj {text text' content' : Text}
    {ids ids' : List Int} {pieces' : List Piece}
    (same : plainPieces text ++ .token content ids :: pieces =
      plainPieces text' ++ .token content' ids' :: pieces') :
    text = text' ∧ content = content' ∧ ids = ids' ∧ pieces = pieces' := by
  unfold plainPieces at same
  split at same
  · split at same
    · simp_all
    · nomatch same
  · split at same
    · nomatch same
    · simp_all

theorem plainPieces_ne_append {text text' : Text} {ids : List Int} :
    plainPieces text ≠ plainPieces text' ++ .token content ids :: pieces := by
  intro same
  unfold plainPieces at same
  split at same
  · split at same
    · nomatch same
    · nomatch same
  · split at same
    · nomatch same
    · nomatch same

/-! ## Agreement -/

section Agreement

variable {special_tokens_cache_ : List (Text × Int)} {added_tokens : List AddedToken} {text : Text}

/-- A token that is found in a part is found in front of where it is found in the text. -/
theorem FirstAdded.le_of_take {token' : AddedToken}
    (isFirst : FirstAdded added_tokens (text.take size) place token)
    (isFirst' : FirstAdded added_tokens text place' token') : place' ≤ place :=
  isFirst'.best.leftmost _ isFirst.best.member isFirst.best.some place isFirst.best.occurs.of_take

theorem FirstAdded.place_eq_of_take (isFirst : FirstAdded added_tokens (text.take size) place token)
    (isFirst' : FirstAdded added_tokens text place' token) : place = place' := by
  have le := isFirst.le_of_take isFirst'
  have fits := isFirst.best.occurs.length_le isFirst.best.some
  rw [length_take] at fits
  refine le_antisymm ?_ le
  exact isFirst.best.leftmost _ isFirst'.best.member isFirst'.best.some place'
    (isFirst'.best.occurs.take (by omega))

theorem trimEnd_take (text : Text) (le : place ≤ size) :
    trimEnd (text.take size) 0 place = trimEnd text 0 place := by
  induction place with
  | zero => rfl
  | succ place ih =>
    have sameByte : (text.take size).getD place 0 = text.getD place 0 := by
      rw [getD_eq_getElem?_getD, getD_eq_getElem?_getD, getElem?_take_of_lt le]
    rw [trimEnd, trimEnd, sameByte, ih (le_of_succ_le le)]

theorem AddedToken.prefixEnd_take (token : AddedToken) (text : Text) (le : place ≤ size) :
    token.prefixEnd (text.take size) place = token.prefixEnd text place := by
  unfold AddedToken.prefixEnd
  rw [trimEnd_take text le]

section

variable {text : Text}

/-- If nothing is left in front of a token, it is found at once or strips white space. -/
theorem AddedToken.blank_of_prefixEnd (none : token.prefixEnd text place = 0) :
    place = 0 ∨ (token.lstrip = true ∧ ∀ i < place, isspace (text.getD i 0) = true) := by
  unfold AddedToken.prefixEnd at none
  split at none
  · rename_i strips
    exact Or.inr ⟨strips, fun i less =>
      isspace_of_trimEnd (le_trans (le_of_eq none) (zero_le i)) less⟩
  · exact Or.inl none

theorem FirstAdded.ne_nil (isFirst : FirstAdded added_tokens text place token) : text ≠ [] := by
  rintro rfl
  nomatch (firstAdded_nil added_tokens).symm.trans (firstAdded_eq_some.mpr isFirst)

/-- A text that begins with white space and one that does not begin with the same
pieces if these are empty. -/
theorem eq_zero_of_take_eq {size' : Nat} (isSpace : ∃ c, text.head? = some c ∧ isspace c = true)
    (notSpace : ∀ c, whole.head? = some c → isspace c = false) (some : whole ≠ [])
    (same : text.take size = whole.take size') : size = 0 ∧ size' = 0 := by
  obtain ⟨c, isHead, isSpace⟩ := isSpace
  have none : size = 0 := by
    by_contra positive
    have head : (text.take size).head? = Option.some c := by
      rw [head?_take, if_neg positive, isHead]
    rw [same, head?_take] at head
    split at head
    · nomatch head
    · exact Bool.false_ne_true ((notSpace c head).symm.trans isSpace)
  rw [none, take_zero, eq_comm, take_eq_nil_iff] at same
  exact ⟨none, same.resolve_right some⟩

theorem eq_zero_of_prefixEnd (notSpace : ∀ c, text.head? = some c → isspace c = false) (some : text ≠ [])
    (none : token.prefixEnd text place = 0) : place = 0 := by
  rcases AddedToken.blank_of_prefixEnd none with isZero | ⟨-, blank⟩
  · exact isZero
  · by_contra positive
    obtain ⟨c, rest, rfl⟩ := exists_cons_of_ne_nil some
    exact Bool.false_ne_true ((notSpace c rfl).symm.trans (blank 0 (pos_of_ne_zero positive)))

/-- After one split has stripped more white space, both meet the same token if it strips
the rest. -/
theorem lstrip_of_lag (isSpace : ∃ c, text.head? = some c ∧ isspace c = true)
    (notSpace : ∀ c, whole.head? = some c → isspace c = false)
    (isFirst : FirstAdded added_tokens (text.take size) place token)
    (isFirst' : FirstAdded added_tokens whole place' token)
    (same : (text.take size).take (token.prefixEnd (text.take size) place) =
      whole.take (token.prefixEnd whole place')) :
    token.lstrip = true ∧ place' = 0 ∧ text.dropWhile isspace = text.drop place := by
  rw [take_take] at same
  have sizePositive : size ≠ 0 := by
    rintro rfl
    exact isFirst.ne_nil rfl
  obtain ⟨none, none'⟩ := eq_zero_of_take_eq isSpace notSpace isFirst'.ne_nil same
  have isZero : token.prefixEnd (text.take size) place = 0 := by omega
  have isZero' := eq_zero_of_prefixEnd notSpace isFirst'.ne_nil none'
  have head := isFirst.best.occurs.of_take.head?_eq isFirst.best.some
  have head' := isFirst'.best.occurs.head?_eq isFirst'.best.some
  rw [isZero', drop_zero, ← head] at head'
  rcases AddedToken.blank_of_prefixEnd isZero with rfl | ⟨strips, blank⟩
  · obtain ⟨c, isHead, isSpace⟩ := isSpace
    rw [drop_zero, isHead] at head'
    exact absurd ((notSpace c head').symm.trans isSpace) Bool.false_ne_true
  · refine ⟨strips, isZero', dropWhile_eq_drop (fun i less => ?_) fun c isHead => ?_⟩
    · have isBlank := blank i less
      have fits := isFirst.best.occurs.length_le isFirst.best.some
      rw [length_take] at fits
      rwa [getD_eq_getElem?_getD, getElem?_take_of_lt (by omega),
        ← getD_eq_getElem?_getD] at isBlank
    · exact notSpace c (head'.trans isHead)

/-- A special token and the same added token behind the same text are at one place. -/
theorem place_eq_of_take_eq (fits : place + token.content.length ≤ text.length)
    (compared : strncmpEq (text.drop place) token.content = true)
    (isFirst : FirstAdded added_tokens text place' token)
    (same : text.take place = text.take (token.prefixEnd text place')) :
    place' = place ∧ token.prefixEnd text place = place := by
  have fits' := isFirst.best.occurs.length_le isFirst.best.some
  have le := token.prefixEnd_le text place'
  have sameSize := congrArg List.length same
  rw [length_take, length_take] at sameSize
  have isEnd : token.prefixEnd text place' = place := by omega
  have blank : ∀ i, place ≤ i → i < place' → isspace (text.getD i 0) = true := by
    intro i le' less
    unfold AddedToken.prefixEnd at isEnd
    split at isEnd
    · exact isspace_of_trimEnd (isEnd ▸ le') less
    · omega
  have occurs : OccursAt token.content text place := by
    refine @prefix_of_strncmpEq _ _ (place' - place) compared ?_ ?_ ?_
    · rw [length_drop]
      omega
    · rw [drop_drop, Nat.add_sub_cancel' (isEnd ▸ le)]
      exact isFirst.best.occurs
    · intro i less
      rw [getD_eq_getElem?_getD, getElem?_drop, ← getD_eq_getElem?_getD]
      exact blank (place + i) (Nat.le_add_right ..) (by omega)
  have samePlace : place' = place := le_antisymm
      (isFirst.best.leftmost _ isFirst.best.member isFirst.best.some place occurs)
      (isEnd ▸ le)
  exact ⟨samePlace, samePlace ▸ isEnd⟩

theorem trimEnd_eq_zero (blank : ∀ i < place, isspace (text.getD i 0) = true) : trimEnd text 0 place = 0 := by
  induction place with
  | zero => rfl
  | succ place ih =>
    rw [trimEnd, if_pos ⟨succ_pos place, blank place (lt_succ_self place)⟩]
    exact ih fun i less => blank i (lt_succ_of_lt less)

/-- What lies in front of the text behind the white space is white space. -/
theorem isspace_of_dropWhile_eq_drop (same : text.dropWhile isspace = text.drop place) (inside : place ≤ text.length)
    {i : Nat} (less : i < place) : isspace (text.getD i 0) = true := by
  have split := takeWhile_append_dropWhile (p := isspace) (l := text)
  have size := congrArg List.length split
  rw [length_append, same, length_drop] at size
  have less' : i < (text.takeWhile isspace).length := by omega
  rw [← split, getD_eq_getElem?_getD, getElem?_append_left less',
    getElem?_eq_getElem less', getD_some]
  exact mem_takeWhile_imp (getElem_mem less')

end

theorem Lag.behind (text : Text) (place : Nat) (token : AddedToken) :
    Lag (text.drop (place + token.content.length)) (text.drop (token.nextStart text place)) := by
  unfold AddedToken.nextStart
  split
  · exact Or.inr (drop_skipSpaces text _)
  · exact Or.inl rfl

theorem Handed.eq_of_none (handed : Handed special_tokens_cache_ added_tokens text pieces)
    (isNone : nextSpecial special_tokens_cache_ text = none) :
    pieces = addedPieces added_tokens text := by
  induction handed with
  | finish _ absent => rw [addedPieces_eq, absent]
  | @added text front place token pieces isFront isFirst _ ih =>
    have whole : front = text := by
      rw [isFront, cutPlace, isNone]
      exact text.take_length
    rw [addedPieces_eq, ← whole, isFirst, whole]
    rw [whole] at ih
    rw [ih (nextSpecial_drop_none isNone _)]
  | cut isNext => nomatch isNone.symm.trans isNext

/-- What is in front of the same token is the same, if the two splits are in step. -/
theorem take_prefixEnd_eq (isFirst : FirstAdded added_tokens (text.take size) place token)
    (isFirst' : FirstAdded added_tokens whole place' token)
    (lag : Lag text whole) (same : text.drop place = whole.drop place')
    (strips : whole = text ∨ (token.lstrip ∧ place' = 0)) :
    (text.take size).take (token.prefixEnd (text.take size) place) =
      whole.take (token.prefixEnd whole place') := by
  have fits := isFirst.best.occurs.length_le isFirst.best.some
  rw [length_take] at fits
  have inside : place ≤ size := by omega
  have le := token.prefixEnd_le text place
  rw [token.prefixEnd_take text inside, take_take, min_eq_left (by omega)]
  rcases lag.cases with rfl | ⟨dropped, -, -⟩
  · rw [isFirst.place_eq_of_take isFirst']
  · rcases strips with rfl | ⟨strips, rfl⟩
    · rw [isFirst.place_eq_of_take isFirst']
    · rw [drop_zero, dropped, eq_comm] at same
      have none : token.prefixEnd text place = 0 := by
        rw [AddedToken.prefixEnd, if_pos strips]
        exact trimEnd_eq_zero fun i less =>
          isspace_of_dropWhile_eq_drop same (by omega) less
      rw [none, le_zero.mp (token.prefixEnd_le whole 0)]
      rfl

theorem InStep.pieces_eq (inStep : InStep special_tokens_cache_ added_tokens text whole)
    (handed : Handed special_tokens_cache_ added_tokens text pieces)
    (lag : Lag text whole) : pieces = addedPieces added_tokens whole := by
  induction inStep generalizing pieces with
  | rest isNone => exact handed.eq_of_none isNone
  | @added text whole place place' token isFirst isFirst' same strips _ ih =>
    cases handed with
    | finish isNone absent =>
      rw [cutPlace, isNone] at isFirst
      rw [text.take_length, absent] at isFirst
      nomatch isFirst
    | @added _ _ _ token' _ isFront found others =>
      subst isFront
      obtain ⟨rfl, rfl⟩ := Prod.mk.inj (some.inj (found.symm.trans isFirst))
      rw [addedPieces_eq, isFirst']
      dsimp only
      rw [take_prefixEnd_eq (firstAdded_eq_some.mp isFirst)
          (firstAdded_eq_some.mp isFirst') lag same strips,
        ih others (Lag.nextStart same token' _)]
    | cut isNext absent =>
      rw [cutPlace, isNext] at isFirst
      nomatch absent.symm.trans isFirst
  | @cut text place token isNext isFirst front _ ih =>
    cases handed with
    | finish isNone => nomatch isNone.symm.trans isNext
    | @added _ front' _ _ _ isFront found _ =>
      obtain rfl : front' = text.take place := by rw [isFront, cutPlace, isNext]
      have isFirst' := firstAdded_eq_some.mp found
      have le := isFirst'.le_of_take (firstAdded_eq_some.mp isFirst)
      have fits := isFirst'.best.occurs.length_le isFirst'.best.some
      have positive := length_pos_of_ne_nil isFirst'.best.some
      rw [length_take] at fits
      omega
    | cut isNext' _ others =>
      obtain ⟨rfl, samePair⟩ := Prod.mk.inj (some.inj (isNext'.symm.trans isNext))
      obtain ⟨rfl, rfl⟩ := Prod.mk.inj samePair
      rw [addedPieces_eq, isFirst]
      dsimp only
      rw [front, ih others (Lag.behind text _ token)]

theorem Handed.inStep (handed : Handed special_tokens_cache_ added_tokens text pieces)
    (lag : Lag text whole) (same : pieces = addedPieces added_tokens whole) :
    InStep special_tokens_cache_ added_tokens text whole := by
  induction handed generalizing whole with
  | @finish text isNone absent =>
    rcases lag.cases with rfl | ⟨-, ⟨c, isHead, isSpace⟩, notSpace⟩
    · exact .rest isNone
    · rw [addedPieces_eq] at same
      have some : text ≠ [] := by
        rintro rfl
        nomatch isHead
      cases isFirst : firstAdded added_tokens whole with
      | none =>
        rw [isFirst, plainPieces, if_neg some, plainPieces] at same
        dsimp only at same
        split at same
        · nomatch same
        · obtain rfl := Piece.text.inj (List.cons.inj same).1
          exact absurd ((notSpace c isHead).symm.trans isSpace) Bool.false_ne_true
      | some first =>
        rw [isFirst] at same
        exact absurd same plainPieces_ne_append
  | @added text front place token pieces isFront isFirst others ih =>
    subst isFront
    rw [addedPieces_eq] at same
    cases isFirst' : firstAdded added_tokens whole with
    | none =>
      rw [isFirst'] at same
      exact absurd same.symm plainPieces_ne_append
    | some first =>
      obtain ⟨place', token'⟩ := first
      rw [isFirst'] at same
      obtain ⟨sameFront, sameContent, -, samePieces⟩ := plainPieces_append_inj same
      have first := firstAdded_eq_some.mp isFirst
      have first' := firstAdded_eq_some.mp isFirst'
      obtain rfl : token = token' := by
        have found := first.first
        rw [sameContent, first'.first] at found
        exact (some.inj found).symm
      have goal : text.drop place = whole.drop place' ∧
          (whole = text ∨ (token.lstrip = true ∧ place' = 0)) := by
        rcases lag.cases with rfl | ⟨dropped, isSpace, notSpace⟩
        · exact ⟨by rw [first.place_eq_of_take first'], Or.inl rfl⟩
        · obtain ⟨strips, rfl, behind⟩ := lstrip_of_lag isSpace notSpace first first' sameFront
          exact ⟨by rw [← behind, dropped, drop_zero], Or.inr ⟨strips, rfl⟩⟩
      exact .added isFirst isFirst' goal.1 goal.2 (ih (Lag.nextStart goal.1 token _) samePieces)
  | @cut text place content special_id pieces isNext absent others ih =>
    rw [addedPieces_eq] at same
    cases isFirst : firstAdded added_tokens whole with
    | none =>
      rw [isFirst] at same
      exact absurd same.symm plainPieces_ne_append
    | some first =>
      obtain ⟨place', token⟩ := first
      rw [isFirst] at same
      obtain ⟨sameFront, rfl, sameIds, samePieces⟩ := plainPieces_append_inj same
      obtain rfl := (List.cons.inj sameIds).1
      have first := firstAdded_eq_some.mp isFirst
      obtain ⟨inside, isSpecial, -⟩ := nextSpecial_eq_some.mp isNext
      obtain ⟨-, fits, compared⟩ := specialAt_eq_some isSpecial
      rcases lag.cases with rfl | ⟨-, isSpace, notSpace⟩
      · obtain ⟨rfl, front⟩ := place_eq_of_take_eq fits compared first sameFront
        exact .cut isNext isFirst front (ih (Lag.behind _ _ token) samePieces)
      · obtain ⟨rfl, none⟩ := eq_zero_of_take_eq isSpace notSpace first.ne_nil sameFront
        have isZero := eq_zero_of_prefixEnd notSpace first.ne_nil none
        have head := first.best.occurs.head?_eq first.best.some
        rw [zero_add] at fits
        rw [isZero, drop_zero, ← strncmpEq_head? compared fits first.best.some] at head
        obtain ⟨c, isHead, isSpace⟩ := isSpace
        exact absurd ((notSpace c (head.trans isHead)).symm.trans isSpace) Bool.false_ne_true

end Agreement

/-! ## From ids to pieces -/

/-- The piece is a text, or an added token with its id. -/
def Known (added_tokens : List AddedToken) : Piece → Prop
  | .text _ => True
  | .token content ids => ∃ token ∈ added_tokens, token.content = content ∧ ids = [token.id]

section Known

variable {special_tokens_cache_ : List (Text × Int)} {added_tokens : List AddedToken}

theorem known_plainPieces (text : Text) : ∀ piece ∈ plainPieces text, Known added_tokens piece := by
  intro piece member
  unfold plainPieces at member
  split at member
  · exact absurd member not_mem_nil
  · rw [mem_singleton.mp member]
    trivial

theorem known_append {text : Text} {ids : List Int}
    (isToken : Known added_tokens (.token content ids))
    (others : ∀ piece ∈ pieces, Known added_tokens piece) :
    ∀ piece ∈ plainPieces text ++ .token content ids :: pieces, Known added_tokens piece := by
  intro piece member
  rcases mem_append.mp member with member | member
  · exact known_plainPieces text piece member
  · rcases mem_cons.mp member with rfl | member
    · exact isToken
    · exact others piece member

theorem Handed.known {text : Text} (among : ∀ pair ∈ special_tokens_cache_,
      ∃ token ∈ added_tokens, token.content = pair.1 ∧ token.id = pair.2)
    (handed : Handed special_tokens_cache_ added_tokens text pieces) :
    ∀ piece ∈ pieces, Known added_tokens piece := by
  induction handed with
  | finish => exact known_plainPieces _
  | @added _ _ _ token _ _ isFirst _ ih =>
    have member := mem_of_find?_eq_some (firstAdded_eq_some.mp isFirst).first
    exact known_append ⟨token, member, rfl, rfl⟩ ih
  | cut isNext _ _ ih =>
    obtain ⟨-, isSpecial, -⟩ := nextSpecial_eq_some.mp isNext
    obtain ⟨token, member, same, sameId⟩ := among _ (specialAt_eq_some isSpecial).1
    exact known_append ⟨token, member, same, by rw [sameId]⟩ ih

/-- A number that is the id of no added token, for each text. -/
def freshIds (added_tokens : List AddedToken) (text : Text) : List Int :=
  [(added_tokens.map fun token => token.id.natAbs).sum + 1 +
    Encodable.encode (text.map BitVec.toNat)]

theorem freshIds_ne (member : token ∈ added_tokens) (text : Text) :
    freshIds added_tokens text ≠ [token.id] := by
  intro same
  have isId := (List.cons.inj same).1
  have le : token.id.natAbs ≤ (added_tokens.map fun token => token.id.natAbs).sum :=
    le_sum_of_mem (mem_map_of_mem member)
  omega

theorem freshIds_inj {text text' : Text}
    (same : freshIds added_tokens text = freshIds added_tokens text') : text = text' := by
  have isCode := (List.cons.inj same).1
  have isText : text.map BitVec.toNat = text'.map BitVec.toNat :=
    Encodable.encode_injective (by omega)
  exact map_injective_iff.mpr (fun _ _ => BitVec.eq_of_toNat_eq) isText

/-- Known pieces with the same ids are the same, if the id of a token says what its
content is. -/
theorem Known.eq {piece piece' : Piece} (distinct : ∀ token ∈ added_tokens, ∀ token' ∈ added_tokens,
      token.id = token'.id → token.content = token'.content)
    (known : Known added_tokens piece) (known' : Known added_tokens piece')
    (same : piece.encode (freshIds added_tokens) =
      piece'.encode (freshIds added_tokens)) : piece = piece' := by
  cases piece with
  | text text =>
    cases piece' with
    | text text' => exact congrArg Piece.text (freshIds_inj same)
    | token content' ids' =>
      obtain ⟨token, member, -, rfl⟩ := known'
      exact absurd same (freshIds_ne member text)
  | token content ids =>
    obtain ⟨token, member, rfl, rfl⟩ := known
    cases piece' with
    | text text' => exact absurd same.symm (freshIds_ne member text')
    | token content' ids' =>
      obtain ⟨token', member', rfl, rfl⟩ := known'
      have sameId := (List.cons.inj same).1
      rw [distinct token member token' member' sameId, sameId]

theorem Known.length_encode {piece : Piece} (known : Known added_tokens piece) :
    (piece.encode (freshIds added_tokens)).length = 1 := by
  cases piece with
  | text text => rfl
  | token content ids =>
    obtain ⟨token, -, -, rfl⟩ := known
    rfl

theorem pieces_eq_of_flatMap_eq {pieces' : List Piece}
    (distinct : ∀ token ∈ added_tokens, ∀ token' ∈ added_tokens,
      token.id = token'.id → token.content = token'.content)
    (known : ∀ piece ∈ pieces, Known added_tokens piece)
    (known' : ∀ piece ∈ pieces', Known added_tokens piece)
    (same : pieces.flatMap (Piece.encode (freshIds added_tokens)) =
      pieces'.flatMap (Piece.encode (freshIds added_tokens))) : pieces = pieces' := by
  induction pieces generalizing pieces' with
  | nil =>
    cases pieces' with
    | nil => rfl
    | cons piece' pieces' =>
      have size := congrArg List.length same
      rw [flatMap_cons, length_append,
        (known' piece' mem_cons_self).length_encode, flatMap_nil,
        length_nil] at size
      omega
  | cons piece pieces ih =>
    have isKnown := known piece mem_cons_self
    cases pieces' with
    | nil =>
      have size := congrArg List.length same
      rw [flatMap_cons, length_append, isKnown.length_encode] at size
      rw [flatMap_nil, length_nil] at size
      omega
    | cons piece' pieces' =>
      have isKnown' := known' piece' mem_cons_self
      rw [flatMap_cons, flatMap_cons] at same
      obtain ⟨first, others⟩ := append_inj same
        (isKnown.length_encode.trans isKnown'.length_encode.symm)
      rw [isKnown.eq distinct isKnown' first,
        ih (fun other member => known other (mem_cons_of_mem _ member))
          (fun other member => known' other (mem_cons_of_mem _ member)) others]

end Known

/-! ## The two layers -/

namespace PipelineTokenizer

variable (tokenizer : PipelineTokenizer) (special_tokens_ : List Int)

/-- The special tokens are added tokens. -/
def SpecialAmongAdded : Prop :=
  ∀ id ∈ special_tokens_, tokenizer.decode id ≠ [] →
    ∃ token ∈ tokenizer.added_tokens_, token.content = tokenizer.decode id ∧ token.id = id

/-- The two splits of the text stay in step from its front to its end. -/
def StaysInStep (str : Text) : Prop :=
  InStep (tokenizer.cache_special_tokens special_tokens_) tokenizer.added_tokens_ str str

theorem mem_cache_special_tokens (member : pair ∈ tokenizer.cache_special_tokens special_tokens_) :
    pair.2 ∈ special_tokens_ ∧ pair.1 = tokenizer.decode pair.2 ∧ pair.1 ≠ [] := by
  obtain ⟨id, isSpecial, found⟩ := mem_filterMap.mp member
  dsimp only at found
  split at found
  · nomatch found
  · rename_i some
    obtain rfl := Option.some.inj found
    exact ⟨isSpecial, rfl, some⟩

/-- What the two splits hand on is the same if and only if they stay in step. -/
theorem specialPieces_eq_iff (str : Text) :
    specialPieces (tokenizer.cache_special_tokens special_tokens_)
        tokenizer.added_tokens_ str = addedPieces tokenizer.added_tokens_ str ↔
      tokenizer.StaysInStep special_tokens_ str := by
  have handed := @handed_specialPieces _ tokenizer.added_tokens_
    (fun _ member => (tokenizer.mem_cache_special_tokens special_tokens_ member).2.2) str
  constructor
  · exact handed.inStep (Or.inl rfl)
  · intro inStep
    exact inStep.pieces_eq handed (Or.inl rfl)

/-- The pieces are the same if their ids are the same for all ids of texts. -/
theorem specialPieces_eq_of_ids (among : tokenizer.SpecialAmongAdded special_tokens_)
    (distinct : ∀ token ∈ tokenizer.added_tokens_, ∀ token' ∈ tokenizer.added_tokens_,
      token.id = token'.id → token.content = token'.content) {str : Text}
    (same : ∀ encodeText : Text → List Int,
      (specialPieces (tokenizer.cache_special_tokens special_tokens_)
          tokenizer.added_tokens_ str).flatMap (Piece.encode encodeText) =
        (addedPieces tokenizer.added_tokens_ str).flatMap (Piece.encode encodeText)) :
    specialPieces (tokenizer.cache_special_tokens special_tokens_)
      tokenizer.added_tokens_ str = addedPieces tokenizer.added_tokens_ str := by
  have handed := @handed_specialPieces _ tokenizer.added_tokens_
    (fun _ member => (tokenizer.mem_cache_special_tokens special_tokens_ member).2.2) str
  have whole := @handed_specialPieces [] tokenizer.added_tokens_
    (fun _ member => absurd member not_mem_nil) str
  refine pieces_eq_of_flatMap_eq distinct (handed.known fun pair member => ?_)
    (whole.known fun _ member => absurd member not_mem_nil) (same _)
  obtain ⟨isSpecial, isContent, some⟩ := tokenizer.mem_cache_special_tokens special_tokens_ member
  rw [isContent] at some ⊢
  exact among pair.2 isSpecial some

/-- A space and a special token that strips white space in front of it. -/
def maskTokenizer : PipelineTokenizer where
  normalizer_ := none
  pre_tokenizer_ := none
  model_ := some (.bpe [[0x20], [0x3C, 0x6D, 0x3E]] [([0x20], 0), ([0x3C, 0x6D, 0x3E], 1)] [] false)
  decoder_ := none
  added_tokens_ := [⟨1, [0x3C, 0x6D, 0x3E], true, true, false⟩]

theorem specialAmongAdded_maskTokenizer : maskTokenizer.SpecialAmongAdded [1] := by
  intro id member _
  obtain rfl := mem_singleton.mp member
  exact ⟨_, mem_singleton_self _, by decide, rfl⟩

end PipelineTokenizer

end Mnn.Mtok
