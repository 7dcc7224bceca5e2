import Mnn.Llm.CheckedRegex

/-!
# The pieces of every text

For every text and pattern the runs of the scanner and of the splitter have a result if
and only if the numbers of the pattern are small, `std::wregex` does not throw, and the
number of code points is an `int`.  The pieces then make up the text.
-/

namespace Mnn.Regex.Unicode

open Mnn.Foundation BitFields Cutting Utf8
open List
open Nat

/-! ## Offsets -/

section Offsets

variable (get_category : Nat → Category)

theorem length_foldTextFuel_le (fuel i : Nat) (text : Text) :
    (foldTextFuel get_category fuel i text).length ≤ fuel := by
  induction fuel generalizing i text with
  | zero => exact le_refl 0
  | succ fuel ih =>
    cases text with
    | nil => exact zero_le _
    | cons c rest => exact succ_le_succ (ih ..)

theorem step_foldTextFuel {fuel i : Nat} {text : Text} (enough : text.length ≤ fuel)
    {k : Nat} (less : k < (foldTextFuel get_category fuel i text).length) :
    let table := (foldTextFuel get_category fuel i text).map Prod.fst ++ [i + text.length]
    ∃ a < text.length, table[k]? = some (i + a) ∧
      table[k + 1]? = some (i + a + (utf8_decode (text.drop a)).1) := by
  induction fuel generalizing i text k with
  | zero => exact absurd less (not_lt_zero k)
  | succ fuel ih =>
    cases text with
    | nil => exact absurd less (not_lt_zero k)
    | cons c rest =>
      have le := utf8_decode_le (cons_ne_nil c rest)
      have pos := utf8_decode_pos (c :: rest)
      rw [foldTextFuel_cons] at less ⊢
      generalize isCount : (utf8_decode (c :: rest)).1 = count at pos le less ⊢
      have short : ((c :: rest).drop count).length ≤ fuel := by
        rw [length_drop]
        omega
      have ends : i + count + ((c :: rest).drop count).length = i + (c :: rest).length := by
        rw [length_drop]
        omega
      cases k with
      | zero =>
        refine ⟨0, succ_pos _, rfl, ?_⟩
        have first := (@offsets_foldTextFuel get_category fuel (i + count)
          ((c :: rest).drop count) short).2
        rw [ends, head?_eq_getElem?] at first
        rw [drop_zero, isCount]
        exact first
      | succ k =>
        obtain ⟨a, lessA, isHere, isNext⟩ := @ih (i + count)
          ((c :: rest).drop count) short k (lt_of_succ_lt_succ less)
        rw [ends] at isHere isNext
        rw [drop_drop] at isNext
        rw [length_drop] at lessA
        refine ⟨count + a, by omega, ?_, ?_⟩
        · rw [← add_assoc]
          exact isHere
        · rw [← add_assoc]
          exact isNext

end Offsets

theorem offset_step (engine : Engine) {text : Text} {k : Nat}
    (less : k < (fold_text engine.get_category text).length) :
    engine.offset text k < text.length ∧ engine.offset text (k + 1) = engine.offset text k +
        (utf8_decode (text.drop (engine.offset text k))).1 := by
  rw [fold_text, length_map] at less
  obtain ⟨a, lessA, isHere, isNext⟩ :=
    @step_foldTextFuel engine.get_category text.length 0 text (le_refl _) k less
  rw [zero_add, zero_add] at isHere
  rw [zero_add, zero_add] at isNext
  have here : engine.offset text k = a := by
    rw [Engine.offset, getD_eq_getElem?_getD, byteOffsets, isHere, Option.getD_some]
  refine ⟨by rw [here]; exact lessA, ?_⟩
  rw [here, Engine.offset, getD_eq_getElem?_getD, byteOffsets, isNext, Option.getD_some]

theorem length_fold_text_le (get_category : Nat → Category) (text : Text) :
    (fold_text get_category text).length ≤ text.length := by
  rw [fold_text, length_map]
  exact length_foldTextFuel_le ..

variable {folded : List Byte} {flen : Int}

section Scanning

variable {engine : Engine} {text : Text} {branches : List (List RNode)} {i pos fuel : Nat}

theorem read_byteOffsets (le : i ≤ (fold_text engine.get_category text).length) :
    read (byteOffsets engine.get_category text) i = .ok (engine.offset text i) :=
  read_getD text.length (by rw [length_byteOffsets]; exact lt_succ_of_le le)

theorem offset_le (le : i ≤ (fold_text engine.get_category text).length) :
    engine.offset text i ≤ text.length := by
  have offsets := offsets_offset engine text
  have least := offsets.mono i _ le (le_refl _)
  rw [offsets.last] at least
  exact least

theorem matchEnd_ok (pattern : Text) (inside : flen.toNat ≤ folded.length) (le : pos ≤ flen.toNat)
    (compiled : engine.get_compiled pattern = branches) :
    matchEnd branches folded flen pos =
      .ok (engine.matchEnd pattern (folded.take flen.toNat) pos) := by
  rw [matchEnd, try_branches_ok inside branches le, Engine.matchEnd, compiled]
  rfl

theorem matchEnd_le {size last : Nat} {pattern : Text}
    (inside : size ≤ folded.length) (le : pos ≤ size)
    (isEnd : engine.matchEnd pattern (folded.take size) pos = some last) :
    pos < last ∧ last ≤ size := by
  have length : (folded.take size).length = size := by
    rw [length_take, min_eq_left inside]
  have bounds := matchEnd_bounds (by rw [length]; exact le) isEnd
  rw [length] at bounds
  exact bounds

theorem scanLoop_ok {pattern : Text}
    (inside : flen.toNat ≤ (fold_text engine.get_category text).length)
    (compiled : engine.get_compiled pattern = branches)
    (le : pos ≤ flen.toNat) (enough : flen.toNat ≤ pos + fuel) :
    scanLoop branches text (fold_text engine.get_category text)
        (byteOffsets engine.get_category text) flen (fuel + 1) pos =
      .ok (engine.scanFuel pattern text
        ((fold_text engine.get_category text).take flen.toNat) fuel pos) := by
  have length : ((fold_text engine.get_category text).take flen.toNat).length = flen.toNat := by
    rw [length_take, min_eq_left inside]
  induction fuel generalizing pos with
  | zero =>
    rw [scanLoop, if_neg (by omega)]
    rfl
  | succ fuel ih =>
    rw [scanLoop, Engine.scanFuel, length]
    by_cases less : pos < flen.toNat
    · rw [if_pos (by omega), if_pos less, matchEnd_ok pattern inside le compiled]
      have goesOn {last : Nat} (behind : pos < last) (le' : last ≤ flen.toNat) : (do
            let start ← read (byteOffsets engine.get_category text) pos
            let stop ← read (byteOffsets engine.get_category text) last
            let piece ← substr text start (stop - start)
            let pieces ← scanLoop branches text (fold_text engine.get_category text)
              (byteOffsets engine.get_category text) flen (fuel + 1) last
            pure (piece :: pieces)) =
          Except.ok (slice text (engine.offset text pos) (engine.offset text last) ::
            engine.scanFuel pattern text
              ((fold_text engine.get_category text).take flen.toNat) fuel last) := by
        rw [read_byteOffsets (le_trans le inside),
          read_byteOffsets (le_trans le' inside), ih le' (by omega)]
        show substr _ _ _ >>= _ = _
        rw [substr_ok _ (offset_le (le_trans le inside))]
        rfl
      cases isEnd : engine.matchEnd pattern
        ((fold_text engine.get_category text).take flen.toNat) pos with
      | none => exact goesOn (lt_succ_self pos) less
      | some last =>
        have bounds := matchEnd_le inside le isEnd
        exact goesOn bounds.1 bounds.2
    · rw [if_neg (by omega), if_neg less]
      rfl

theorem matchLoop_ok {pattern : Text} (inside : flen.toNat ≤ folded.length)
    (compiled : engine.get_compiled pattern = branches)
    (le : pos ≤ flen.toNat) (enough : flen.toNat ≤ pos + fuel) :
    matchLoop branches folded flen (fuel + 1) pos =
      .ok (engine.matchesFuel pattern (folded.take flen.toNat) fuel pos) := by
  have length : (folded.take flen.toNat).length = flen.toNat := by
    rw [length_take, min_eq_left inside]
  induction fuel generalizing pos with
  | zero =>
    rw [matchLoop, if_neg (by omega)]
    rfl
  | succ fuel ih =>
    rw [matchLoop, Engine.matchesFuel, length]
    by_cases less : pos < flen.toNat
    · rw [if_pos (by omega), if_pos less, matchEnd_ok pattern inside le compiled]
      cases isEnd : engine.matchEnd pattern (folded.take flen.toNat) pos with
      | none => exact ih less (by omega)
      | some last =>
        have bounds := matchEnd_le inside le isEnd
        show (matchLoop branches folded flen (fuel + 1) last >>= _ :
          Except Fault (List (Nat × Nat))) = _
        rw [ih bounds.2 (by omega)]
        rfl
    · rw [if_neg (by omega), if_neg less]
      rfl

end Scanning

section Segments

variable {text : Text} {size : Nat} {place : Nat → Except Fault Nat} {offset : Nat → Nat}

section

variable (offsets : Offsets text size offset) (isOffset : ∀ i ≤ size, place i = .ok (offset i))
  {matches_ : List (Nat × Nat)}

include offsets isOffset

theorem segmentLoop_ok {prev : Nat} (ordered : MatchesFrom size prev matches_) :
    segmentLoop text place matches_ prev = .ok (Engine.segments text offset matches_ prev) := by
  have inside {i : Nat} (le : i ≤ size) : offset i ≤ text.length := by
    have least := offsets.mono i size le (le_refl _)
    rw [offsets.last] at least
    exact least
  induction ordered with
  | nil le => rfl
  | @cons prev first last matches_ le le' others ih =>
    have leLast := others.le
    have leFirst := le_trans le' leLast
    have lePrev := le_trans le leFirst
    rw [segmentLoop, Engine.segments, isOffset first leFirst, isOffset last leLast,
      isOffset prev lePrev, ih]
    show ((if prev < first then _ else _ : Except Fault (List Engine.Seg)) >>= _ :
      Except Fault (List Engine.Seg × Nat)) = _
    split
    · show (substr _ _ _ >>= _) >>= _ = _
      rw [substr_ok _ (inside lePrev)]
      show substr _ _ _ >>= _ = _
      rw [substr_ok _ (inside leFirst)]
      rfl
    · show substr _ _ _ >>= _ = _
      rw [substr_ok _ (inside leFirst)]
      rfl

theorem allSegments_ok (ordered : MatchesFrom size 0 matches_) :
    allSegments text place size matches_ = .ok (Engine.allSegments text offset size matches_) := by
  obtain ⟨-, -, le⟩ := flatten_segments offsets ordered
  have inside := offsets.mono _ size le (le_refl _)
  rw [offsets.last] at inside
  rw [allSegments, segmentLoop_ok offsets isOffset ordered, Engine.allSegments]
  show (if _ then _ else _ : Except Fault (List Engine.Seg)) = _
  by_cases less : (Engine.segments text offset matches_ 0).2 < size
  · rw [if_pos (Int.ofNat_lt.mpr less), if_pos less, isOffset _ le]
    show substr _ _ _ >>= _ = _
    rw [substr_ok _ inside, take_of_length_le (by
      rw [length_drop]
      exact sub_le ..)]
    rfl
  · rw [if_neg (fun less' => less (Int.ofNat_lt.mp less')), if_neg less, append_nil]
    rfl

end

end Segments

/-! ## Behaviors -/

theorem flatten_mergeWithNext (result : List Text) (pending : Text) (segs : List Engine.Seg) :
    (Engine.mergeWithNext result pending segs).flatten =
      result.flatten ++ pending ++ (segs.map Engine.Seg.str).flatten := by
  induction segs generalizing result pending with
  | nil =>
    rw [Engine.mergeWithNext, map_nil, flatten_nil, append_nil]
    split
    · rename_i none
      rw [none, append_nil]
    · split
      · rename_i none
        rw [none]
        exact append_nil _
      · rename_i some
        obtain ⟨front, last, rfl⟩ : ∃ front last, result = front ++ [last] :=
          ⟨_, _, (dropLast_append_getLast some).symm⟩
        rw [dropLast_concat, getLast?_concat, Option.getD_some]
        simp only [flatten_append, flatten_cons, flatten_nil, append_nil, append_assoc]
  | cons seg segs ih =>
    rw [Engine.mergeWithNext, map_cons, flatten_cons]
    split
    · rw [ih]
      simp only [append_assoc]
    · rw [ih]
      simp only [flatten_append, flatten_cons, flatten_nil, append_nil, append_assoc]

/-- Three behaviors put all segments into the pieces, matched or not. -/
inductive Reassembles : Mtok.SplitBehavior → Prop
  | isolated : Reassembles .isolated
  | mergedWithPrevious : Reassembles .mergedWithPrevious
  | mergedWithNext : Reassembles .mergedWithNext

theorem flatten_apply {behavior : Mtok.SplitBehavior}
    (reassembles : Reassembles behavior) (segs : List Engine.Seg) (invert : Bool) :
    (Engine.apply_behavior segs invert behavior).flatten = (segs.map Engine.Seg.str).flatten := by
  cases reassembles with
  | isolated => exact flatten_apply_behavior (.inl rfl) segs invert
  | mergedWithPrevious => exact flatten_apply_behavior (.inr rfl) segs invert
  | mergedWithNext =>
    refine (flatten_mergeWithNext [] [] _).trans ?_
    rw [map_map, flatten_nil, nil_append, nil_append]
    congr 1
    refine map_congr_left fun seg _ => ?_
    show (if invert then _ else seg : Engine.Seg).str = seg.str
    split
    · rfl
    · rfl

/-- What is between the matches, from this offset on. -/
def unmatched (text : Text) : Nat → List (Nat × Nat) → List Text
  | prev, [] => [text.drop prev]
  | prev, (first, last) :: matches_ =>
    slice text prev first :: unmatched text last matches_

/-- The pieces that are not matched, or that are where the roles are swapped. -/
def unmatchedPieces (text : Text) (invert : Bool) (matches_ : List (Nat × Nat)) : List Text :=
  (if invert then matches_.map fun found => slice text found.1 found.2
    else unmatched text 0 matches_).filter (· ≠ [])

section Removed

variable {text : Text} {size : Nat} {offset : Nat → Nat}

theorem filter_segments_matched (matches_ : List (Nat × Nat)) (prev : Nat) :
    ((Engine.segments text offset matches_ prev).1.filter fun seg =>
        seg.is_match && seg.str ≠ []).map Engine.Seg.str =
      (matches_.map fun found => slice text (offset found.1) (offset found.2)).filter (· ≠ []) := by
  induction matches_ generalizing prev with
  | nil => rfl
  | cons found matches_ ih =>
    have between : (if prev < found.1 then
            [⟨slice text (offset prev) (offset found.1), false⟩]
          else [] : List Engine.Seg).filter (fun seg => seg.is_match && seg.str ≠ []) = [] := by
      split
      · rfl
      · rfl
    rw [Engine.segments, filter_append, between, nil_append, map_cons]
    by_cases none : slice text (offset found.1) (offset found.2) = []
    · rw [filter_cons_of_neg (by simpa using none), filter_cons_of_neg (by simpa using none), ih]
    · rw [filter_cons_of_pos (by simpa using none),
        filter_cons_of_pos (by simpa using none), map_cons, ih]

/-- The segments that are not, with what is behind the last match. -/
theorem filter_segments_unmatched {matches_ : List (Nat × Nat)} {prev : Nat}
    (ordered : MatchesFrom size prev matches_) :
    ((Engine.segments text offset matches_ prev).1.filter fun seg =>
          !seg.is_match && seg.str ≠ []).map Engine.Seg.str ++
        [text.drop (offset (Engine.segments text offset matches_ prev).2)].filter (· ≠ []) =
      (unmatched text (offset prev)
        (matches_.map fun found => (offset found.1, offset found.2))).filter (· ≠ []) := by
  induction ordered with
  | nil le => rfl
  | @cons prev first last matches_ le le' others ih =>
    have between : ((if prev < first then
            [⟨slice text (offset prev) (offset first), false⟩]
          else [] : List Engine.Seg).filter
            (fun seg => !seg.is_match && seg.str ≠ [])).map Engine.Seg.str =
          [slice text (offset prev) (offset first)].filter (· ≠ []) := by
      split
      · by_cases none : slice text (offset prev) (offset first) = []
        · rw [filter_cons_of_neg (by simpa using none), filter_cons_of_neg (by simpa using none)]
          rfl
        · rw [filter_cons_of_pos (by simpa using none), filter_cons_of_pos (by simpa using none)]
          rfl
      · rename_i notLess
        obtain rfl := Nat.le_antisymm le (Nat.le_of_not_lt notLess)
        rw [slice_self]
        rfl
    have matched :
        ((⟨slice text (offset first) (offset last), true⟩ : Engine.Seg) ::
            (Engine.segments text offset matches_ last).1).filter
              (fun seg => !seg.is_match && seg.str ≠ []) =
          (Engine.segments text offset matches_ last).1.filter
            (fun seg => !seg.is_match && seg.str ≠ []) :=
      filter_cons_of_neg Bool.false_ne_true
    rw [Engine.segments]
    dsimp only
    rw [filter_append, map_append, between, matched, append_assoc,
      ih, map_cons, unmatched, ← filter_append, singleton_append]

theorem apply_inverted (segs : List Engine.Seg) :
    Engine.apply_behavior segs true .removed =
      (segs.filter fun seg => seg.is_match && seg.str ≠ []).map Engine.Seg.str := by
  show ((segs.map fun seg => { seg with is_match := !seg.is_match }).filter
    fun seg => !seg.is_match && seg.str ≠ []).map Engine.Seg.str = _
  rw [filter_map, map_map]
  refine congrArg (List.map Engine.Seg.str) (filter_congr fun seg _ => ?_)
  show (!!seg.is_match && _) = _
  rw [Bool.not_not]

theorem apply_plain (segs : List Engine.Seg) :
    Engine.apply_behavior segs false .removed =
      (segs.filter fun seg => !seg.is_match && seg.str ≠ []).map Engine.Seg.str := by
  show ((segs.map id).filter _).map _ = _
  rw [map_id]

theorem apply_removed (offsets : Offsets text size offset) {matches_ : List (Nat × Nat)}
    (ordered : MatchesFrom size 0 matches_) (invert : Bool) :
    Engine.apply_behavior (Engine.allSegments text offset size matches_) invert .removed =
      unmatchedPieces text invert (matches_.map fun found => (offset found.1, offset found.2)) := by
  obtain ⟨-, -, le⟩ := flatten_segments offsets ordered
  have isUnmatched := @filter_segments_unmatched text size offset matches_ 0 ordered
  rw [offsets.first] at isUnmatched
  have isMatched := @filter_segments_matched text offset matches_ 0
  rw [Engine.allSegments, unmatchedPieces]
  generalize Engine.segments text offset matches_ 0 = segs at le isUnmatched isMatched
  cases invert with
  | true =>
    have none : (if segs.2 < size then [⟨text.drop (offset segs.2), false⟩] else [] :
          List Engine.Seg).filter (fun seg => seg.is_match && seg.str ≠ []) = [] := by
      split
      · rfl
      · rfl
    rw [apply_inverted, if_pos rfl, map_map, filter_append, none, append_nil, isMatched]
    rfl
  | false =>
    have rest : ((if segs.2 < size then [⟨text.drop (offset segs.2), false⟩] else [] :
          List Engine.Seg).filter (fun seg => !seg.is_match && seg.str ≠ [])).map
            Engine.Seg.str = [text.drop (offset segs.2)].filter (· ≠ []) := by
      split
      · by_cases none : text.drop (offset segs.2) = []
        · rw [filter_cons_of_neg (by simpa using none), filter_cons_of_neg (by simpa using none)]
          rfl
        · rw [filter_cons_of_pos (by simpa using none), filter_cons_of_pos (by simpa using none)]
          rfl
      · rename_i notLess
        rw [Nat.le_antisymm le (Nat.le_of_not_lt notLess), offsets.last, drop_length]
        rfl
    rw [apply_plain, if_neg Bool.false_ne_true, ← isUnmatched, ← rest, ← map_append,
      ← filter_append]

end Removed

end Mnn.Regex.Unicode
