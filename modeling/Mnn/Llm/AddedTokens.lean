import Mnn.Foundation.Occurrences
import Mnn.Llm.PipelineEncode

/-!
# The split at added tokens

`multi_string_find` finds the leftmost added token, the longest of those and the first
of those in the list.  What the split does behind a place only depends on the text
behind it.
-/

variable {place idx k last : Nat}

namespace Mnn.Mtok

open Mnn.Foundation BitFields ByteReader Occurrences
open List
open Option
open Nat

variable {candidate : Text} {start : Nat} {candidates : List Text}

/-! ## Searching -/

theorem findFirst_eq_some {text : Text} (found : findFirst candidate start text = some place) :
    ∃ k, place = start + k ∧ OccursAt candidate text k ∧
      ∀ k', OccursAt candidate text k' → k ≤ k' := by
  induction text generalizing start with
  | nil =>
    rw [findFirst] at found
    split at found
    · rename_i isNil
      obtain rfl := some.inj found
      refine ⟨0, rfl, ?_, fun k' _ => zero_le k'⟩
      rw [isNil]
      exact nil_prefix
    · nomatch found
  | cons c rest ih =>
    rw [findFirst] at found
    split at found
    · rename_i isPrefix
      obtain rfl := some.inj found
      exact ⟨0, rfl, isPrefixOf_iff_prefix.mp isPrefix, fun k' _ => zero_le k'⟩
    · rename_i notPrefix
      obtain ⟨k, same, occurs, first⟩ := ih found
      refine ⟨k + 1, by omega, occurs, fun k' occurs' => ?_⟩
      cases k' with
      | zero => exact absurd ( isPrefixOf_iff_prefix.mpr occurs') notPrefix
      | succ k' => exact succ_le_succ (first k' occurs')

theorem not_occursAt_of_findFirst {text : Text}
    (some : candidate ≠ []) (absent : findFirst candidate start text = none) (k : Nat) :
    ¬OccursAt candidate text k := by
  induction text generalizing start k with
  | nil =>
    intro occurs
    rw [OccursAt, drop_nil] at occurs
    exact some (prefix_nil.mp occurs)
  | cons c rest ih =>
    rw [findFirst] at absent
    split at absent
    · cases absent
    · rename_i notPrefix
      cases k with
      | zero =>
        exact fun occurs => notPrefix ( isPrefixOf_iff_prefix.mpr occurs)
      | succ k => exact ih absent k

/-- What is known of the candidates that were tried. -/
def Found (text : Text) (start : Nat) (candidates : List Text) : Option (Nat × Nat) → Prop
  | none => ∀ word ∈ candidates, word ≠ [] → ∀ k, ¬OccursAt word text k
  | some (place, idx) => ∃ word k, place = start + k ∧ candidates[idx]? = some word ∧
      Best candidates text k word ∧ ∀ j < idx, candidates[j]? ≠ some word

theorem Found.skip {text : Text} {best} (found : Found text start candidates best)
    (absent : candidate ≠ [] → ∀ k, ¬OccursAt candidate text k) :
    Found text start (candidates ++ [candidate]) best := by
  cases best with
  | none =>
    intro word member some
    rcases mem_append.mp member with member | member
    · exact found word member some
    · obtain rfl := mem_singleton.mp member
      exact absent some
  | some best =>
    obtain ⟨place, idx⟩ := best
    obtain ⟨word, k, same, isWord, isBest, first⟩ := found
    have inside : idx < candidates.length := (List.getElem?_eq_some_iff.mp isWord).1
    refine ⟨word, k, same, ?_, ⟨mem_append_left _ isBest.member, isBest.some,
      isBest.occurs, ?_, ?_⟩, ?_⟩
    · rw [getElem?_append_left inside, isWord]
    · intro other member some
      rcases mem_append.mp member with member | member
      · exact isBest.leftmost other member some
      · obtain rfl := mem_singleton.mp member
        exact fun place' occurs => absurd occurs (absent some place')
    · intro other member occurs
      rcases mem_append.mp member with member | member
      · exact isBest.longest other member occurs
      · obtain rfl := mem_singleton.mp member
        by_cases isNil : other = []
        · rw [isNil]
          exact zero_le _
        · exact absurd occurs (absent isNil k)
    · intro j less
      rw [getElem?_append_left (lt_trans less inside)]
      exact first j less

theorem Found.keep {text : Text} {word : Text} {k' : Nat}
    (same : place = start + k) (isWord : candidates[idx]? = some word)
    (isBest : Best candidates text k word) (first : ∀ j < idx, candidates[j]? ≠ some word)
    (leftmost : ∀ k'', OccursAt candidate text k'' → k' ≤ k'')
    (notLeft : k ≤ k') (notLonger : k = k' → candidate.length ≤ word.length) :
    Found text start (candidates ++ [candidate]) (some (place, idx)) := by
  have inside : idx < candidates.length := (List.getElem?_eq_some_iff.mp isWord).1
  refine ⟨word, k, same, ?_, ⟨mem_append_left _ isBest.member, isBest.some,
    isBest.occurs, ?_, ?_⟩, ?_⟩
  · rw [getElem?_append_left inside, isWord]
  · intro other member some place' occurs
    rcases mem_append.mp member with member | member
    · exact isBest.leftmost other member some place' occurs
    · obtain rfl := mem_singleton.mp member
      exact le_trans notLeft (leftmost place' occurs)
  · intro other member occurs
    rcases mem_append.mp member with member | member
    · exact isBest.longest other member occurs
    · obtain rfl := mem_singleton.mp member
      exact notLonger (le_antisymm notLeft (leftmost k occurs))
  · intro j less
    rw [getElem?_append_left (lt_trans less inside)]
    exact first j less

theorem Found.replace {text : Text} (some : candidate ≠ []) (occurs : OccursAt candidate text k)
    (leftmost : ∀ k', OccursAt candidate text k' → k ≤ k')
    (before : ∀ word ∈ candidates, word ≠ [] → ∀ k', OccursAt word text k' →
      k < k' ∨ (k = k' ∧ word.length < candidate.length)) :
    Found text start (candidates ++ [candidate]) (Option.some (start + k, candidates.length)) := by
  refine ⟨candidate, k, rfl, ?_, ⟨mem_append_right _ (mem_singleton_self _),
    some, occurs, ?_, ?_⟩, ?_⟩
  · rw [getElem?_append_right (Nat.le_refl _), Nat.sub_self]
    rfl
  · intro other member some' place' occurs'
    rcases mem_append.mp member with member | member
    · rcases before other member some' place' occurs' with less | ⟨same, -⟩
      · exact le_of_lt less
      · exact le_of_eq same
    · obtain rfl := mem_singleton.mp member
      exact leftmost place' occurs'
  · intro other member occurs'
    rcases mem_append.mp member with member | member
    · by_cases isNil : other = []
      · rw [isNil]
        exact zero_le _
      · rcases before other member isNil k occurs' with less | ⟨-, shorter⟩
        · exact absurd less (lt_irrefl k)
        · exact le_of_lt shorter
    · obtain rfl := mem_singleton.mp member
      exact le_refl _
  · intro j less isCandidate
    rw [getElem?_append_left less] at isCandidate
    have member := mem_of_getElem? isCandidate
    rcases before candidate member some k occurs with less | ⟨-, shorter⟩
    · exact lt_irrefl k less
    · exact lt_irrefl _ shorter

theorem getD_of_prefix {front : List Text} {word : Text}
    (isFront : front <+: candidates) (isWord : front[idx]? = some word) :
    candidates.getD idx [] = word := by
  obtain ⟨behind, rfl⟩ := isFront
  have inside : idx < front.length := (List.getElem?_eq_some_iff.mp isWord).1
  rw [getD_eq_getElem?_getD, getElem?_append_left inside, isWord, getD_some]

theorem Found.step {text : Text} {front : List Text} {best} (found : Found text start front best)
    (isFront : front ++ [candidate] <+: candidates) (isSome : candidate ≠ [])
    (occurs : OccursAt candidate text k) (leftmost : ∀ k', OccursAt candidate text k' → k ≤ k') :
    Found text start (front ++ [candidate])
      (if betterMatch candidates best (start + k) front.length then
        some (start + k, front.length) else best) := by
  have isCandidate : candidates.getD front.length [] = candidate :=
    getD_of_prefix isFront (by rw [getElem?_concat_length])
  cases best with
  | none =>
    exact Found.replace isSome occurs leftmost fun word member some k' occurs' =>
      absurd occurs' (found word member some k')
  | some best =>
    obtain ⟨place, idx⟩ := best
    obtain ⟨word, k', rfl, isWord, isBest, first⟩ := found
    have isBestWord : candidates.getD idx [] = word :=
      getD_of_prefix ((prefix_append ..).trans isFront) isWord
    have better : betterMatch candidates (some (start + k', idx)) (start + k) front.length = true ↔
        k < k' ∨ (k = k' ∧ word.length < candidate.length) := by
      rw [betterMatch, isCandidate, isBestWord, decide_eq_true_iff,
        Nat.add_lt_add_iff_left, Nat.add_left_cancel_iff]
    by_cases isBetter : k < k' ∨ (k = k' ∧ word.length < candidate.length)
    · rw [if_pos (better.mpr isBetter)]
      refine Found.replace isSome occurs leftmost fun other member some k'' occurs' => ?_
      have notLeft := isBest.leftmost other member some k'' occurs'
      rcases isBetter with left | ⟨rfl, longer⟩
      · exact Or.inl (lt_of_lt_of_le left notLeft)
      · rcases lt_or_eq_of_le notLeft with left | rfl
        · exact Or.inl left
        · exact Or.inr ⟨rfl, lt_of_le_of_lt (isBest.longest other member occurs') longer⟩
    · rw [if_neg (mt better.mp isBetter)]
      rw [not_or, not_and] at isBetter
      exact Found.keep rfl isWord isBest first leftmost (Nat.le_of_not_lt isBetter.1)
        fun same => Nat.le_of_not_lt (isBetter.2 same.symm)

/-- What holds in front and is kept by each item with its place holds behind the loop. -/
theorem foldl_zipIdx_induction {α β : Type*} {f : β → α × Nat → β} {P : List α → β → Prop}
    {items : List α} {init : β} (nil : P [] init) (step : ∀ front item acc,
      front ++ [item] <+: items → P front acc → P (front ++ [item]) (f acc (item, front.length))) :
    P items (items.zipIdx.foldl f init) := by
  suffices tried : ∀ front, front <+: items → P front (front.zipIdx.foldl f init) from
    tried items prefix_rfl
  intro front
  induction front using List.reverseRecOn with
  | nil => exact fun _ => nil
  | append_singleton front item ih =>
    intro isFront
    have before := ih ((prefix_append ..).trans isFront)
    rw [zipIdx_append, foldl_append, zero_add]
    exact step front item _ isFront before

theorem found_multi_string_find (text : Text) (start : Nat) (candidates : List Text) :
    Found (text.drop start) start candidates (multi_string_find text start candidates) := by
  unfold multi_string_find
  refine foldl_zipIdx_induction (P := Found (text.drop start) start)
    (fun _ member => absurd member not_mem_nil) ?_
  intro front candidate best isFront found
  show Found _ _ _ (if candidate = [] then _ else _)
  by_cases isNil : candidate = []
  · rw [if_pos isNil]
    exact found.skip fun some => absurd isNil some
  · rw [if_neg isNil]
    cases isFirst : findFirst candidate start (text.drop start) with
    | none => exact found.skip fun some => not_occursAt_of_findFirst some isFirst
    | some pos =>
      obtain ⟨k, rfl, occurs, leftmost⟩ := findFirst_eq_some isFirst
      exact found.step isFront isNil occurs leftmost

/-! ## The first added token -/

/-- The added token that is found first, and where it is. -/
def firstAdded (added_tokens : List AddedToken) (text : Text) : Option (Nat × AddedToken) :=
  match multi_string_find text 0 (added_tokens.map AddedToken.content) with
  | none => none
  | some (place, idx) => added_tokens[idx]?.map fun token => (place, token)

/-- The token is the best one, and the first one with its content. -/
structure FirstAdded (added_tokens : List AddedToken) (text : Text) (place : Nat)
    (token : AddedToken) : Prop where
  best : Best (added_tokens.map AddedToken.content) text place token.content
  first : added_tokens.find? (fun other => other.content = token.content) = some token

variable {added_tokens : List AddedToken} {text : Text} {place : Nat}
variable {token : AddedToken}

theorem FirstAdded.eq {place' : Nat} {token' : AddedToken}
    (isFirst : FirstAdded added_tokens text place token)
    (isFirst' : FirstAdded added_tokens text place' token') :
    place = place' ∧ token = token' := by
  refine ⟨isFirst.best.place_eq isFirst'.best, ?_⟩
  have found := isFirst.first
  rw [isFirst.best.word_eq isFirst'.best, isFirst'.first] at found
  exact (some.inj found).symm

/-- What `multi_string_find` finds from a place on, in the text behind the place. -/
theorem multi_string_find_cases (added_tokens : List AddedToken) (text : Text) (start : Nat) :
    (multi_string_find text start (added_tokens.map AddedToken.content) = none ∧
        ∀ word ∈ added_tokens.map AddedToken.content, word ≠ [] →
          ∀ k, ¬OccursAt word (text.drop start) k) ∨
      ∃ k idx token, multi_string_find text start (added_tokens.map AddedToken.content) =
            some (start + k, idx) ∧
          added_tokens[idx]? = some token ∧ FirstAdded added_tokens (text.drop start) k token := by
  have found := found_multi_string_find text start (added_tokens.map AddedToken.content)
  cases isFound : multi_string_find text start (added_tokens.map AddedToken.content) with
  | none =>
    rw [isFound] at found
    exact Or.inl ⟨rfl, found⟩
  | some best =>
    obtain ⟨place, idx⟩ := best
    rw [isFound] at found
    obtain ⟨word, k, rfl, isWord, isBest, first⟩ := found
    rw [getElem?_map, map_eq_some_iff] at isWord
    obtain ⟨token, isToken, rfl⟩ := isWord
    refine Or.inr ⟨k, idx, token, rfl, isToken, isBest, ?_⟩
    obtain ⟨inside, same⟩ := List.getElem?_eq_some_iff.mp isToken
    refine List.find?_eq_some_iff_getElem.mpr
      ⟨decide_eq_true rfl, idx, inside, same, fun j less => ?_⟩
    have differs := first j less
    rw [getElem?_map, getElem?_eq_getElem (lt_trans less inside)] at differs
    rw [Bool.not_eq_true', decide_eq_false_iff_not]
    exact fun same => differs (congrArg some same)

theorem firstAdded_eq_some :
    firstAdded added_tokens text = some (place, token) ↔
      FirstAdded added_tokens text place token := by
  unfold firstAdded
  rcases multi_string_find_cases added_tokens text 0 with
    ⟨isNone, absent⟩ | ⟨k, idx, token', isFound, isToken, isFirst⟩
  · rw [isNone]
    constructor
    · exact nofun
    · intro isFirst
      exact absurd isFirst.best.occurs (absent _ isFirst.best.member isFirst.best.some place)
  · rw [isFound]
    show added_tokens[idx]?.map _ = _ ↔ _
    rw [isToken, map_some, zero_add]
    constructor
    · intro same
      obtain ⟨rfl, rfl⟩ := Prod.mk.inj (some.inj same)
      exact isFirst
    · intro isFirst'
      obtain ⟨rfl, rfl⟩ := isFirst.eq isFirst'
      rfl

theorem firstAdded_eq_none :
    firstAdded added_tokens text = none ↔ ∀ word ∈ added_tokens.map AddedToken.content, word ≠ [] →
        ∀ k, ¬OccursAt word text k := by
  constructor
  · intro isNone
    rcases multi_string_find_cases added_tokens text 0 with
      ⟨-, absent⟩ | ⟨k, idx, token', -, -, isFirst⟩
    · exact absent
    · have isSome := firstAdded_eq_some.mpr isFirst
      rw [drop_zero, isNone] at isSome
      nomatch isSome
  · intro absent
    rw [eq_none_iff_forall_ne_some]
    rintro ⟨place, token⟩ isSome
    have isFirst := firstAdded_eq_some.mp isSome
    exact absent _ isFirst.best.member isFirst.best.some place isFirst.best.occurs

theorem firstAdded_nil (added_tokens : List AddedToken) : firstAdded added_tokens [] = none := by
  refine firstAdded_eq_none.mpr fun word _ some k occurs => ?_
  have fits := occurs.length_le some
  have positive := length_pos_of_ne_nil some
  rw [length_nil] at fits
  omega

/-! ## White space -/

variable (str : Text)

theorem trimEnd_le (first last : Nat) : trimEnd str first last ≤ last := by
  induction last with
  | zero => exact le_refl 0
  | succ last ih =>
    rw [trimEnd]
    split
    · exact le_succ_of_le ih
    · exact le_refl _

theorem trimEnd_drop (first last : Nat) :
    trimEnd str first (first + last) = first + trimEnd (str.drop first) 0 last := by
  induction last with
  | zero =>
    cases first with
    | zero => rfl
    | succ first => exact if_neg fun impossible => lt_irrefl _ impossible.1
  | succ last ih =>
    have sameByte : (str.drop first).getD last 0 = str.getD (first + last) 0 := by
      rw [getD_eq_getElem?_getD, getD_eq_getElem?_getD, getElem?_drop]
    rw [← add_assoc, trimEnd, trimEnd, sameByte]
    by_cases isSpace : isspace (str.getD (first + last) 0) = true
    · rw [if_pos ⟨by omega, isSpace⟩, if_pos ⟨succ_pos last, isSpace⟩, ih]
    · rw [if_neg fun both => isSpace both.2, if_neg fun both => isSpace both.2, add_assoc]

theorem isspace_of_trimEnd {str : Text} {first i : Nat}
    (le : trimEnd str first last ≤ i) (less : i < last) :
    isspace (str.getD i 0) = true := by
  induction last with
  | zero => exact absurd less (not_lt_zero i)
  | succ last ih =>
    rw [trimEnd] at le
    split at le
    · rename_i trimmed
      rcases lt_or_eq_of_le (le_of_lt_succ less) with less | rfl
      · exact ih le less
      · exact trimmed.2
    · omega

theorem skipSpaces_drop (first place : Nat) :
    skipSpaces str (first + place) = first + skipSpaces (str.drop first) place := by
  rw [skipSpaces, skipSpaces, drop_drop, add_assoc]

theorem le_skipSpaces (place : Nat) : place ≤ skipSpaces str place :=
  Nat.le_add_right ..

theorem skipSpaces_le {str : Text} (inside : place ≤ str.length) :
    skipSpaces str place ≤ str.length := by
  have le := ( takeWhile_prefix (p := isspace) (l := str.drop place)).length_le
  rw [length_drop] at le
  rw [skipSpaces]
  omega

theorem drop_skipSpaces (place : Nat) :
    str.drop (skipSpaces str place) = (str.drop place).dropWhile isspace := by
  rw [skipSpaces, ← drop_drop]
  generalize str.drop place = rest
  calc
    rest.drop (rest.takeWhile isspace).length =
        (rest.takeWhile isspace ++ rest.dropWhile isspace).drop
          (rest.takeWhile isspace).length := by
      rw [takeWhile_append_dropWhile]
    _ = rest.dropWhile isspace := drop_left

/-! ## One step of the split -/

/-- The end of the text in front of an added token. -/
def AddedToken.prefixEnd (token : AddedToken) (text : Text) (place : Nat) : Nat :=
  if token.lstrip then trimEnd text 0 place else place

/-- The place behind an added token. -/
def AddedToken.nextStart (token : AddedToken) (text : Text) (place : Nat) : Nat :=
  if token.rstrip then skipSpaces text (place + token.content.length)
  else place + token.content.length

theorem AddedToken.prefixEnd_le (token : AddedToken) (text : Text) (place : Nat) :
    token.prefixEnd text place ≤ place := by
  unfold AddedToken.prefixEnd
  split
  · exact trimEnd_le text 0 place
  · exact le_refl place

theorem AddedToken.le_nextStart (token : AddedToken) (text : Text) (place : Nat) :
    place + token.content.length ≤ token.nextStart text place := by
  unfold AddedToken.nextStart
  split
  · exact le_skipSpaces text _
  · exact le_refl _

theorem FirstAdded.nextStart_le (isFirst : FirstAdded added_tokens text place token) :
    token.nextStart text place ≤ text.length := by
  have inside := isFirst.best.occurs.length_le isFirst.best.some
  unfold AddedToken.nextStart
  split
  · exact skipSpaces_le inside
  · exact inside

/-- A piece of the text that is not empty. -/
def plainUnits (text : Text) : List Unit_ :=
  if text = [] then [] else [(text, false)]

theorem ite_plainUnits {rest : Text} (some : rest ≠ []) (last size : Nat) :
    (if last < last + size then [(rest.take size, false)] else []) =
      plainUnits (rest.take size) := by
  cases size with
  | zero => exact if_neg (lt_irrefl last)
  | succ size =>
    have taken : rest.take (size + 1) ≠ [] := by
      rw [ne_eq, take_eq_nil_iff, not_or]
      exact ⟨succ_ne_zero size, some⟩
    rw [if_pos (Nat.lt_add_of_pos_right (Nat.succ_pos size)), plainUnits, if_neg taken]

theorem splitUnits_succ (added_tokens : List AddedToken) (str : Text) (fuel last : Nat) :
    splitUnits added_tokens str (fuel + 1) last =
      match firstAdded added_tokens (str.drop last) with
      | none => plainUnits (str.drop last)
      | some (place, token) =>
        plainUnits ((str.drop last).take (token.prefixEnd (str.drop last) place)) ++
          (token.content, true) :: splitUnits added_tokens str fuel
              (last + token.nextStart (str.drop last) place) := by
  rw [splitUnits]
  by_cases inside : last < str.length
  · have some : str.drop last ≠ [] := by
      rw [ne_eq, drop_eq_nil_iff]
      exact Nat.not_le_of_lt inside
    rw [if_pos inside]
    rcases multi_string_find_cases added_tokens str last with
      ⟨isNone, absent⟩ | ⟨place, idx, token, isFound, isToken, isFirst⟩
    · rw [isNone, firstAdded_eq_none.mpr absent]
      exact (if_neg some).symm
    · rw [isFound, firstAdded_eq_some.mpr isFirst]
      dsimp only
      rw [isToken]
      have front : (if token.lstrip = true then trimEnd str last (last + place)
            else last + place) = last + token.prefixEnd (str.drop last) place := by
        rw [AddedToken.prefixEnd, trimEnd_drop]
        split
        · rfl
        · rfl
      have behind : (if token.rstrip = true then
              skipSpaces str (last + place + token.content.length)
            else last + place + token.content.length) =
            last + token.nextStart (str.drop last) place := by
        rw [AddedToken.nextStart, add_assoc, skipSpaces_drop]
        split
        · rfl
        · rfl
      show (if last <
          (if token.lstrip = true then trimEnd str last (last + place)
            else last + place) then _ else _) ++
        _ :: splitUnits _ _ _ (if token.rstrip = true then
              skipSpaces str (last + place + token.content.length)
            else last + place + token.content.length) = _
      rw [front, behind, Cutting.slice, Nat.add_sub_cancel_left]
      congr 1
      exact ite_plainUnits some last _
  · have none : str.drop last = [] := drop_eq_nil_of_le (Nat.le_of_not_lt inside)
    rw [if_neg inside, none, firstAdded_nil]
    rfl

/-- The split behind a place only depends on the text behind it. -/
theorem splitUnits_congr {fuel fuel' : Nat} {str str' : Text} {last' : Nat}
    (enough : str.length ≤ last + fuel) (enough' : str'.length ≤ last' + fuel')
    (same : str.drop last = str'.drop last') :
    splitUnits added_tokens str fuel last = splitUnits added_tokens str' fuel' last' := by
  induction fuel generalizing fuel' last last' with
  | zero =>
    have none : str.drop last = [] := drop_eq_nil_of_le enough
    cases fuel' with
    | zero => rfl
    | succ fuel' =>
      rw [splitUnits_succ, ← same, none, firstAdded_nil]
      rfl
  | succ fuel ih =>
    cases fuel' with
    | zero =>
      have none : str'.drop last' = [] := drop_eq_nil_of_le enough'
      rw [splitUnits_succ, same, none, firstAdded_nil]
      rfl
    | succ fuel' =>
      rw [splitUnits_succ, splitUnits_succ, same]
      cases isFirst : firstAdded added_tokens (str'.drop last') with
      | none => rfl
      | some first =>
        obtain ⟨place, token⟩ := first
        have forward := token.le_nextStart (str'.drop last') place
        have some := (firstAdded_eq_some.mp isFirst).best.some
        have positive := length_pos_of_ne_nil some
        dsimp only
        generalize token.nextStart (str'.drop last') place = next at forward ⊢
        have others : splitUnits added_tokens str fuel (last + next) =
            splitUnits added_tokens str' fuel' (last' + next) := by
          refine ih (by omega) (by omega) ?_
          rw [← drop_drop, ← drop_drop, same]
        exact congrArg _ (congrArg _ others)

/-- The split from the front of the text. -/
def unitsOf (added_tokens : List AddedToken) (text : Text) : List Unit_ :=
  splitUnits added_tokens text text.length 0

theorem unitsOf_eq (added_tokens : List AddedToken) (text : Text) :
    unitsOf added_tokens text =
      match firstAdded added_tokens text with
      | none => plainUnits text
      | some (place, token) =>
        plainUnits (text.take (token.prefixEnd text place)) ++ (token.content, true) ::
            unitsOf added_tokens (text.drop (token.nextStart text place)) := by
  have unfolded := splitUnits_succ added_tokens text text.length 0
  rw [drop_zero] at unfolded
  have more : unitsOf added_tokens text = splitUnits added_tokens text (text.length + 1) 0 :=
    splitUnits_congr (by omega) (by omega) rfl
  rw [more, unfolded]
  cases firstAdded added_tokens text with
  | none => rfl
  | some first =>
    obtain ⟨place, token⟩ := first
    have others : splitUnits added_tokens text text.length (0 + token.nextStart text place) =
        unitsOf added_tokens (text.drop (token.nextStart text place)) := by
      refine splitUnits_congr (by omega) (by omega) ?_
      rw [zero_add, drop_zero]
    exact congrArg _ (congrArg _ others)

end Mnn.Mtok
