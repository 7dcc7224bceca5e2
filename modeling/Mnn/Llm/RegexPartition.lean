import Mnn.Llm.RegexEngine

/-!
# The pieces of the engine make up the text

Whatever the branches of a pattern are, a match ends inside of the text, so that the
pieces are cut at offsets of code points, from the front to the end.
-/

namespace Mnn.Regex

open Mnn.Foundation BitFields Cutting Utf8
open List
open Nat

/-! ## Matches end inside of the text -/

theorem countMatches_le (test : Byte → Bool) (qmax : Nat) (rest : List Byte) :
    countMatches test qmax rest ≤ rest.length := by
  induction qmax generalizing rest with
  | zero => exact zero_le _
  | succ qmax ih =>
    cases rest with
    | nil => exact le_refl 0
    | cons c rest =>
      rw [countMatches]
      split
      · exact succ_le_succ (ih rest)
      · exact zero_le _

theorem exists_of_backtrack {result : Nat → Option Nat} {qmin count last : Nat}
    (found : backtrack result qmin count = some last) :
    ∃ c ≤ count, result c = some last := by
  induction count with
  | zero =>
    rw [backtrack] at found
    split at found
    · exact ⟨0, le_refl 0, found⟩
    · nomatch found
  | succ count ih =>
    rw [backtrack] at found
    split at found
    · cases here : result (count + 1) with
      | some other =>
        rw [here, Option.some_or] at found
        exact ⟨count + 1, le_refl _, by rw [here, found]⟩
      | none =>
        rw [here, Option.none_or] at found
        obtain ⟨c, le, isResult⟩ := ih found
        exact ⟨c, le_succ_of_le le, isResult⟩
    · nomatch found

theorem mem_collect {size : Nat} {alternatives : Nat → Option Nat}
    (bounded : ∀ place last, place ≤ size → alternatives place = some last → last ≤ size)
    {reps place : Nat} (inside : place ≤ size) :
    ∀ p ∈ collect alternatives reps place, place ≤ p ∧ p ≤ size := by
  induction reps generalizing place with
  | zero =>
    intro p member
    obtain rfl := mem_singleton.mp member
    exact ⟨le_refl _, inside⟩
  | succ reps ih =>
    intro p member
    rw [collect] at member
    split at member
    · obtain rfl := mem_singleton.mp member
      exact ⟨le_refl _, inside⟩
    · rename_i next isNext
      split at member
      · obtain rfl := mem_singleton.mp member
        exact ⟨le_refl _, inside⟩
      · rename_i behind
        rcases mem_cons.mp member with rfl | member
        · exact ⟨le_refl _, inside⟩
        · obtain ⟨ge, le⟩ := ih (bounded place next inside isNext) p member
          exact ⟨le_trans (le_of_lt (Nat.lt_of_not_le behind)) ge, le⟩

mutual

theorem match_seq_bounds (text : List Byte) (nodes : List RNode) {pos last : Nat}
    (inside : pos ≤ text.length) (matched : match_seq text nodes pos = some last) :
    pos ≤ last ∧ last ≤ text.length := by
  match nodes with
  | [] =>
    rw [match_seq] at matched
    obtain rfl := Option.some.inj matched
    exact ⟨le_refl _, inside⟩
  | .neg_la alts _ _ :: nodes =>
    rw [match_seq] at matched
    split at matched
    · nomatch matched
    · exact match_seq_bounds text nodes inside matched
  | .cs test qmin qmax :: nodes =>
    rw [match_seq] at matched
    obtain ⟨c, le, matched⟩ := exists_of_backtrack matched
    have few := countMatches_le test (qmax.getD (text.length - pos)) (text.drop pos)
    rw [length_drop] at few
    obtain ⟨ge, le⟩ := match_seq_bounds text nodes (by omega) matched
    exact ⟨by omega, le⟩
  | .grp alts qmin qmax :: nodes =>
    rw [match_seq] at matched
    obtain ⟨c, -, matched⟩ := exists_of_backtrack matched
    have members := @mem_collect text.length (fun p => try_branches text alts p)
      (fun place last le found => (try_branches_bounds text alts le found).2)
      (qmax.getD 10000) pos inside
    generalize collect (fun p => try_branches text alts p) (qmax.getD 10000) pos =
      positions at matched members
    have place : pos ≤ positions.getD c pos ∧ positions.getD c pos ≤ text.length := by
      rw [getD_eq_getElem?_getD]
      cases isPlace : positions[c]? with
      | none => exact ⟨le_refl _, inside⟩
      | some p => exact members p (mem_of_getElem? isPlace)
    obtain ⟨ge, le⟩ := match_seq_bounds text nodes place.2 matched
    exact ⟨le_trans place.1 ge, le⟩

theorem try_branches_bounds (text : List Byte) (alts : List (List RNode))
    {pos last : Nat} (inside : pos ≤ text.length)
    (matched : try_branches text alts pos = some last) :
    pos ≤ last ∧ last ≤ text.length := by
  match alts with
  | [] =>
    rw [try_branches] at matched
    nomatch matched
  | branch :: alts =>
    rw [try_branches] at matched
    cases here : match_seq text branch pos with
    | some other =>
      rw [here, Option.some_or] at matched
      obtain rfl := Option.some.inj matched
      exact match_seq_bounds text branch inside here
    | none =>
      rw [here, Option.none_or] at matched
      exact try_branches_bounds text alts inside matched

end

/-! ## Offsets of code points -/

variable (engine : Engine)

section Offsets

variable (get_category : Nat → Category)

theorem foldTextFuel_cons (fuel i : Nat) (c : Byte) (rest : Text) :
    foldTextFuel get_category (fuel + 1) i (c :: rest) =
      (i, cp_to_folded get_category (utf8_decode (c :: rest)).2) ::
        foldTextFuel get_category fuel (i + (utf8_decode (c :: rest)).1)
          ((c :: rest).drop (utf8_decode (c :: rest)).1) :=
  rfl

theorem head_le_of_pairwise {offsets : List Nat} {first : Nat}
    (sorted : offsets.Pairwise (· ≤ ·)) (isFirst : offsets.head? = some first) :
    ∀ offset ∈ offsets, first ≤ offset := by
  intro offset member
  cases offsets with
  | nil => nomatch isFirst
  | cons head offsets =>
    obtain rfl := Option.some.inj isFirst
    rcases mem_cons.mp member with rfl | member
    · exact le_refl _
    · exact rel_of_pairwise_cons sorted member

theorem offsets_foldTextFuel {fuel i : Nat} {text : Text} (enough : text.length ≤ fuel) :
    let offsets :=
      (foldTextFuel get_category fuel i text).map Prod.fst ++ [i + text.length]
    offsets.Pairwise (· ≤ ·) ∧ offsets.head? = some i := by
  induction fuel generalizing i text with
  | zero =>
    obtain rfl := length_eq_zero_iff.mp (le_zero.mp enough)
    exact ⟨pairwise_singleton .., rfl⟩
  | succ fuel ih =>
    cases text with
    | nil => exact ⟨pairwise_singleton .., rfl⟩
    | cons c rest =>
      have pos := utf8_decode_pos (c :: rest)
      have le := utf8_decode_le (cons_ne_nil c rest)
      have behind := @ih (i + (utf8_decode (c :: rest)).1)
        ((c :: rest).drop (utf8_decode (c :: rest)).1) (by
          rw [length_drop]
          omega)
      have ends : i + (utf8_decode (c :: rest)).1 +
          ((c :: rest).drop (utf8_decode (c :: rest)).1).length =
            i + (c :: rest).length := by
        rw [length_drop]
        omega
      rw [ends] at behind
      obtain ⟨sorted, isFirst⟩ := behind
      rw [foldTextFuel_cons]
      refine ⟨pairwise_cons.mpr ⟨fun offset member => ?_, sorted⟩, rfl⟩
      have first := head_le_of_pairwise sorted isFirst offset member
      omega

theorem length_byteOffsets (text : Text) :
    (byteOffsets get_category text).length = (fold_text get_category text).length + 1 := by
  rw [byteOffsets, fold_text, length_append, length_map, length_map]
  rfl

theorem offsets_offset (text : Text) :
    Offsets text (fold_text engine.get_category text).length (engine.offset text) := by
  have facts := @offsets_foldTextFuel engine.get_category text.length 0 text (le_refl _)
  rw [zero_add] at facts
  obtain ⟨sorted, isFirst⟩ :
      (byteOffsets engine.get_category text).Pairwise (· ≤ ·) ∧
        (byteOffsets engine.get_category text).head? = some 0 :=
    facts
  have length := length_byteOffsets engine.get_category text
  have inside {i : Nat} (le : i ≤ (fold_text engine.get_category text).length) :
      ∃ less : i < (byteOffsets engine.get_category text).length,
        engine.offset text i = (byteOffsets engine.get_category text)[i] := by
    refine ⟨by omega, ?_⟩
    rw [Engine.offset, getD_eq_getElem?_getD, getElem?_eq_getElem (by omega), Option.getD_some]
  refine ⟨?_, ?_, fun i j le le' => ?_⟩
  · rw [Engine.offset, getD_eq_getElem?_getD, ← head?_eq_getElem?, isFirst]
    rfl
  · rw [Engine.offset, getD_eq_getElem?_getD, byteOffsets, fold_text,
      length_map, getElem?_append_right (by rw [length_map]),
      length_map, Nat.sub_self]
    rfl
  · obtain ⟨lessI, isI⟩ := inside (le_trans le le')
    obtain ⟨lessJ, isJ⟩ := inside le'
    rw [isI, isJ]
    rcases eq_or_lt_of_le le with rfl | less
    · exact le_refl _
    · exact pairwise_iff_getElem.mp sorted i j lessI lessJ less

end Offsets

theorem matchEnd_bounds {engine : Engine} {pattern : Text} {folded : List Byte}
    {pos last : Nat} (inside : pos ≤ folded.length)
    (isEnd : engine.matchEnd pattern folded pos = some last) :
    pos < last ∧ last ≤ folded.length := by
  obtain ⟨matched, less⟩ := Option.filter_eq_some_iff.mp isEnd
  exact ⟨of_decide_eq_true less, (try_branches_bounds folded _ inside matched).2⟩

theorem pieces_scanFuel (pattern text : Text)
    (folded : List Byte) {fuel pos : Nat} (inside : pos ≤ folded.length)
    (enough : folded.length ≤ pos + fuel) :
    Pieces text (engine.offset text) pos folded.length
      (engine.scanFuel pattern text folded fuel pos) := by
  induction fuel generalizing pos with
  | zero =>
    obtain rfl := le_antisymm inside enough
    exact .nil _
  | succ fuel ih =>
    rw [Engine.scanFuel]
    split
    · rename_i less
      cases isEnd : engine.matchEnd pattern folded pos with
      | none =>
        exact .cons (le_succ pos) (ih less (by
          rw [Option.getD_none]
          omega))
      | some last =>
        obtain ⟨behind, le⟩ := matchEnd_bounds inside isEnd
        exact .cons (le_of_lt behind) (ih le (by
          rw [Option.getD_some]
          omega))
    · rename_i notLess
      obtain rfl := Nat.le_antisymm inside (Nat.le_of_not_lt notLess)
      exact .nil _

theorem flatten_regex_scanner {text pattern : Text} (inHouse : use_wregex pattern = false) :
    (engine.regex_scanner text pattern).flatten = text := by
  rw [Engine.regex_scanner]
  split
  · rename_i none
    exact none.symm
  · rw [inHouse, if_neg Bool.false_ne_true]
    exact (pieces_scanFuel engine pattern text _ (zero_le _)
      (le_add_left _ 0)).flatten_all (offsets_offset engine text)

/-! ## Splitting -/

/-- Matches one behind the other. -/
inductive MatchesFrom (size : Nat) : Nat → List (Nat × Nat) → Prop
  | nil {prev : Nat} : prev ≤ size → MatchesFrom size prev []
  | cons {prev first last : Nat} {matches_ : List (Nat × Nat)} :
      prev ≤ first → first ≤ last → MatchesFrom size last matches_ →
        MatchesFrom size prev ((first, last) :: matches_)

theorem MatchesFrom.le {size prev : Nat} {matches_ : List (Nat × Nat)}
    (ordered : MatchesFrom size prev matches_) : prev ≤ size := by
  induction ordered with
  | nil le => exact le
  | cons le le' _ le'' => exact le_trans le (le_trans le' le'')

theorem MatchesFrom.of_le {size prev prev' : Nat} {matches_ : List (Nat × Nat)}
    (le : prev ≤ prev') (ordered : MatchesFrom size prev' matches_) :
    MatchesFrom size prev matches_ := by
  cases ordered with
  | nil le' => exact .nil (le_trans le le')
  | cons le' inside others => exact .cons (le_trans le le') inside others

theorem matchesFrom_matchesFuel (pattern : Text)
    (folded : List Byte) {fuel pos : Nat} (inside : pos ≤ folded.length) :
    MatchesFrom folded.length pos (engine.matchesFuel pattern folded fuel pos) := by
  induction fuel generalizing pos with
  | zero => exact .nil inside
  | succ fuel ih =>
    rw [Engine.matchesFuel]
    split
    · rename_i less
      split
      · rename_i last isEnd
        obtain ⟨behind, le⟩ := matchEnd_bounds inside isEnd
        exact .cons (le_refl pos) (le_of_lt behind) (ih le)
      · exact .of_le (le_succ pos) (ih less)
    · exact .nil inside

section

variable {text : Text} {size : Nat} {offset : Nat → Nat} (offsets : Offsets text size offset)
  {matches_ : List (Nat × Nat)}

include offsets

/-- The matches and what is between them make up the text up to the last match. -/
theorem flatten_segments {prev : Nat} (ordered : MatchesFrom size prev matches_) :
    let segs := Engine.segments text offset matches_ prev
    (segs.1.map Engine.Seg.str).flatten = slice text (offset prev) (offset segs.2) ∧
      prev ≤ segs.2 ∧ segs.2 ≤ size := by
  induction ordered with
  | nil le => exact ⟨(slice_self ..).symm, le_refl _, le⟩
  | @cons prev first last matches_ le le' others ih =>
    obtain ⟨same, ge, inside⟩ := ih
    have toFirst := offsets.mono prev first le (le_trans le' others.le)
    have toLast := offsets.mono first last le' others.le
    have toEnd := offsets.mono _ _ ge inside
    have between : ((if prev < first then
            [⟨slice text (offset prev) (offset first), false⟩] else
              [] : List Engine.Seg).map Engine.Seg.str).flatten =
          slice text (offset prev) (offset first) := by
      split
      · exact append_nil _
      · rename_i notLess
        obtain rfl := Nat.le_antisymm le (Nat.le_of_not_lt notLess)
        exact (slice_self ..).symm
    refine ⟨?_, le_trans le (le_trans le' ge), inside⟩
    rw [Engine.segments, map_append, flatten_append, between, map_cons,
      flatten_cons, same, slice_append toLast toEnd,
      slice_append toFirst (le_trans toLast toEnd)]

theorem flatten_allSegments (ordered : MatchesFrom size 0 matches_) :
    ((Engine.allSegments text offset size matches_).map Engine.Seg.str).flatten =
      text := by
  obtain ⟨same, -, inside⟩ := flatten_segments offsets ordered
  rw [Engine.allSegments, map_append, flatten_append, same, offsets.first]
  generalize (Engine.segments text offset matches_ 0).2 = last at inside
  split
  · show slice text 0 (offset last) ++ (text.drop (offset last) ++ []) = text
    rw [append_nil, slice_append_drop (zero_le _), drop_zero]
  · rename_i notLess
    obtain rfl := Nat.le_antisymm inside (Nat.le_of_not_lt notLess)
    rw [offsets.last, slice_zero_length]
    exact append_nil _

end

theorem flatten_filter_ne_nil (texts : List Text) :
    (texts.filter fun s => s ≠ []).flatten = texts.flatten := by
  induction texts with
  | nil => rfl
  | cons s texts ih =>
    by_cases none : s = []
    · rw [filter_cons_of_neg (by simpa using none), ih, none]
      rfl
    · rw [filter_cons_of_pos (by simpa using none), flatten_cons, flatten_cons, ih]

theorem flatten_isolated (segs : List Engine.Seg) :
    ((segs.filter fun seg => seg.str ≠ []).map Engine.Seg.str).flatten =
      (segs.map Engine.Seg.str).flatten := by
  rw [← flatten_filter_ne_nil (segs.map Engine.Seg.str), filter_map]
  rfl

theorem flatten_mergeWithPrevious (result : List Text) (segs : List Engine.Seg) :
    (Engine.mergeWithPrevious result segs).flatten =
      result.flatten ++ (segs.map Engine.Seg.str).flatten := by
  induction segs generalizing result with
  | nil => exact (append_nil _).symm
  | cons seg segs ih =>
    rw [Engine.mergeWithPrevious, map_cons, flatten_cons]
    split
    · rename_i isMatch
      obtain ⟨front, last, rfl⟩ : ∃ front last, result = front ++ [last] :=
        ⟨_, _, (dropLast_append_getLast isMatch.2).symm⟩
      rw [ih, dropLast_concat, getLast?_concat, Option.getD_some]
      simp only [flatten_append, flatten_cons, flatten_nil, append_nil, append_assoc]
    · split
      · rw [ih]
        simp only [flatten_append, flatten_cons, flatten_nil, append_nil, append_assoc]
      · rename_i empty
        rw [ih, not_not.mp empty, nil_append]

/-- No behavior but these two keeps all of the text in its order. -/
def KeepsText (behavior : Mtok.SplitBehavior) : Prop :=
  behavior = .isolated ∨ behavior = .mergedWithPrevious

theorem flatten_apply_behavior {behavior : Mtok.SplitBehavior}
    (keeps : KeepsText behavior) (segs : List Engine.Seg) (invert : Bool) :
    (Engine.apply_behavior segs invert behavior).flatten = (segs.map Engine.Seg.str).flatten := by
  have inverted : (segs.map fun seg =>
        if invert then { seg with is_match := !seg.is_match } else seg).map
          Engine.Seg.str = segs.map Engine.Seg.str := by
    rw [map_map]
    refine map_congr_left fun seg _ => ?_
    show (if invert then _ else seg : Engine.Seg).str = seg.str
    split
    · rfl
    · rfl
  rw [← inverted]
  rcases keeps with rfl | rfl
  · exact flatten_isolated _
  · exact flatten_mergeWithPrevious [] _

/-- The pieces of a split that keeps the text make up the text. -/
theorem flatten_regex_split {text pattern : Text} (invert : Bool)
    {behavior : Mtok.SplitBehavior} (inHouse : use_wregex pattern = false)
    (keeps : KeepsText behavior) :
    (engine.regex_split text pattern invert behavior).flatten = text := by
  rw [Engine.regex_split]
  split
  · rename_i none
    exact none.symm
  · rw [inHouse, if_neg Bool.false_ne_true, flatten_apply_behavior keeps]
    exact flatten_allSegments (offsets_offset engine text)
      (matchesFrom_matchesFuel engine pattern _ (zero_le _))

end Mnn.Regex
