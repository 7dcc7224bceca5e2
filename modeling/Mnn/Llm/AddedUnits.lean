import Mnn.Llm.AddedTokens

/-!
# The units between added tokens

The loop of `encode` with the casts to `int` that places and lengths go through.
Texts and lists of less than 2^31 bytes and tokens are split as without the casts:
into pieces that make up the text, each of them plain text or an added token with the
white space that it strips.
-/

namespace Mnn.Mtok

open Mnn.Foundation BitFields ByteReader Occurrences
open List

/-! ## Casts -/

def INT_MAX : Nat := 2 ^ 31 - 1

/-- `(int)n` -/
def toInt (n : Nat) : Int := (n : Int).bmod (2 ^ 32)

theorem toInt_eq {n : Nat} (fits : n ≤ INT_MAX) : toInt n = n := by
  unfold toInt
  unfold INT_MAX at fits
  exact Int.bmod_eq_of_le (by omega) (by omega)

/-- `text.find(candidate, start)`; a negative start is behind every text. -/
def findFrom (text : Text) (start : Int) (candidate : Text) : Option Nat :=
  if start < 0 then none else findFirst candidate start.toNat (text.drop start.toNat)

/-- Whether a match replaces the best one, which is `{-1, -1}` at first. -/
def castBetter (candidates : List Text) (best : Int × Int) (ipos : Int) (size : Nat) :
    Bool :=
  best.1 = -1 ∨ ipos < best.1 ∨
    (ipos = best.1 ∧ toInt (candidates.getD best.2.toNat []).length < toInt size)

/-- `multi_string_find`, with its casts. -/
def castFind (text : Text) (start : Int) (candidates : List Text) : Int × Int :=
  (candidates.zipIdx.take (toInt candidates.length).toNat).foldl (fun best candidate =>
      if candidate.1 = [] then best
      else match findFrom text start candidate.1 with
        | none => best
        | some pos =>
          if castBetter candidates best (toInt pos) candidate.1.length then
            (toInt pos, (candidate.2 : Int))
          else
            best)
    (-1, -1)

/-- The units of `encode`. -/
def castUnits (added_tokens : List AddedToken) (str : Text) : Nat → Nat → Option (List Unit_)
  | 0, _ => none
  | fuel + 1, last =>
    if last < str.length then
      if added_tokens = [] then
        some [(str.drop last, false)]
      else
        let result := castFind str (toInt last) (added_tokens.map AddedToken.content)
        if 0 ≤ result.1 ∧ 0 ≤ result.2 then do
          let token ← added_tokens[result.2.toNat]?
          let match_pos := result.1.toNat
          let prefix_end :=
            if token.lstrip then trimEnd str last match_pos else match_pos
          let next_start := match_pos + token.content.length
          let next_start :=
            if token.rstrip then skipSpaces str next_start else next_start
          let units ← castUnits added_tokens str fuel next_start
          some ((if last < prefix_end then
              [(Cutting.slice str last prefix_end, false)] else []) ++
            (token.content, true) :: units)
        else
          some [(str.drop last, false)]
    else
      some []

/-! ## Small texts -/

section Small

variable {text : Text} {candidates : List Text}

/-- The best match with and without casts. -/
def SameBest (candidates : List Text) (best : Int × Int) : Option (Nat × Nat) → Prop
  | none => best = (-1, -1)
  | some (pos, idx) => best = ((pos : Int), (idx : Int)) ∧ pos ≤ INT_MAX ∧
      (candidates.getD idx []).length ≤ INT_MAX

theorem findFrom_eq (start : Nat) (candidate : Text) :
    findFrom text start candidate = findFirst candidate start (text.drop start) := by
  rw [findFrom, if_neg (by omega), Int.toNat_natCast]

theorem SameBest.step {best : Int × Int} {best' : Option (Nat × Nat)}
    (same : SameBest candidates best best') (short : text.length ≤ INT_MAX) {start : Nat}
    {candidate : Text × Nat} (inside : start ≤ text.length)
    (isCandidate : candidates[candidate.2]? = some candidate.1) :
    SameBest candidates (if candidate.1 = [] then best
        else match findFrom text start candidate.1 with
          | none => best
          | some pos =>
            if castBetter candidates best (toInt pos) candidate.1.length then
              (toInt pos, (candidate.2 : Int))
            else best)
      (if candidate.1 = [] then best'
        else match findFirst candidate.1 start (text.drop start) with
          | none => best'
          | some pos =>
            if betterMatch candidates best' pos candidate.2 then some (pos, candidate.2)
            else best') := by
  obtain ⟨candidate, idx⟩ := candidate
  dsimp only at isCandidate ⊢
  by_cases isNil : candidate = []
  · rw [if_pos isNil, if_pos isNil]
    exact same
  · rw [if_neg isNil, if_neg isNil, findFrom_eq]
    cases isFound : findFirst candidate start (text.drop start) with
    | none => exact same
    | some pos =>
      obtain ⟨k, rfl, occurs, -⟩ := findFirst_eq_some isFound
      have fits := occurs.length_le isNil
      rw [length_drop] at fits
      have getsCandidate : candidates.getD idx [] = candidate := by
        rw [getD_eq_getElem?_getD, isCandidate, Option.getD_some]
      have better : castBetter candidates best (toInt (start + k)) candidate.length =
          betterMatch candidates best' (start + k) idx := by
        rw [toInt_eq (by omega)]
        cases best' with
        | none =>
          rw [show best = (-1, -1) from same]
          rfl
        | some best' =>
          obtain ⟨rfl, posFits, sizeFits⟩ := same
          rw [castBetter, betterMatch, getsCandidate, Int.toNat_natCast,
            toInt_eq sizeFits, toInt_eq (by omega : candidate.length ≤ INT_MAX)]
          rw [decide_eq_decide]
          omega
      dsimp only
      rw [better]
      split
      · rw [toInt_eq (by omega)]
        refine ⟨rfl, by omega, ?_⟩
        rw [getsCandidate]
        omega
      · exact same

theorem sameBest_castFind (short : text.length ≤ INT_MAX)
    (few : candidates.length ≤ INT_MAX) {start : Nat} (inside : start ≤ text.length) :
    SameBest candidates (castFind text start candidates)
      (multi_string_find text start candidates) := by
  have all : candidates.zipIdx.take (toInt candidates.length).toNat = candidates.zipIdx := by
    rw [toInt_eq few, Int.toNat_natCast]
    exact take_of_length_le (by rw [length_zipIdx])
  rw [castFind, all, multi_string_find]
  have isCandidate : ∀ candidate ∈ candidates.zipIdx,
      candidates[candidate.2]? = some candidate.1 := by
    intro candidate isMem
    exact mem_zipIdx_iff_getElem?.mp isMem
  generalize candidates.zipIdx = others at isCandidate
  have start : SameBest candidates (-1, -1) none := rfl
  generalize ((-1, -1) : Int × Int) = best at start
  generalize (none : Option (Nat × Nat)) = best' at start
  induction others generalizing best best' with
  | nil => exact start
  | cons candidate others ih =>
    rw [foldl_cons, foldl_cons]
    exact ih (fun other isMem => isCandidate other (mem_cons_of_mem _ isMem)) _ _
      (start.step short inside (isCandidate candidate mem_cons_self))

theorem castUnits_eq {added_tokens : List AddedToken} (short : text.length ≤ INT_MAX)
    (few : added_tokens.length ≤ INT_MAX) {fuel last : Nat} (inside : last ≤ text.length)
    (enough : text.length < last + fuel) :
    castUnits added_tokens text fuel last =
      some (splitUnits added_tokens text fuel last) := by
  induction fuel generalizing last with
  | zero => omega
  | succ fuel ih =>
    rw [castUnits, splitUnits]
    by_cases more : last < text.length
    · rw [if_pos more, if_pos more]
      by_cases none : added_tokens = []
      · rw [if_pos none, none]
        rfl
      · rw [if_neg none, toInt_eq (by omega)]
        have same : SameBest (added_tokens.map AddedToken.content)
            (castFind text last (added_tokens.map AddedToken.content))
            (multi_string_find text last (added_tokens.map AddedToken.content)) :=
          sameBest_castFind short (by rwa [length_map]) inside
        rcases multi_string_find_cases added_tokens text last with
          ⟨isNone, -⟩ | ⟨k, idx, token, isFound, isToken, isFirst⟩
        · rw [isNone] at same ⊢
          rw [show castFind _ _ _ = (-1, -1) from same]
          rfl
        · rw [isFound] at same ⊢
          have isPair := same.1
          have positive := length_pos_of_ne_nil isFirst.best.some
          have fits := isFirst.best.occurs.length_le isFirst.best.some
          rw [length_drop] at fits
          have next : castUnits added_tokens text fuel
              (if token.rstrip = true then skipSpaces text (last + k + token.content.length)
                else last + k + token.content.length) =
              some (splitUnits added_tokens text fuel
                (if token.rstrip = true then skipSpaces text (last + k + token.content.length)
                  else last + k + token.content.length)) := by
            have least := le_skipSpaces text (last + k + token.content.length)
            have most : skipSpaces text (last + k + token.content.length) ≤ text.length :=
              skipSpaces_le (by omega)
            split
            · exact ih (by omega) (by omega)
            · exact ih (by omega) (by omega)
          have found : (0 : Int) ≤ ((last + k : Nat) : Int) ∧ (0 : Int) ≤ (idx : Int) := by
            omega
          rw [isPair]
          dsimp only
          rw [if_pos found, Int.toNat_natCast, Int.toNat_natCast, isToken]
          simp only [Option.bind_eq_bind, Option.bind_some, next]
    · rw [if_neg more, if_neg more]

end Small

/-! ## Pieces -/

/-- A piece of the text: plain text, or an added token with white space around it. -/
inductive AddedPiece
  | plain (text : Text)
  | added (left : Text) (token : AddedToken) (right : Text)

namespace AddedPiece

/-- What the piece takes of the text. -/
def text : AddedPiece → Text
  | plain text => text
  | added left token right => left ++ token.content ++ right

/-- The unit that is made of the piece. -/
def unit_ : AddedPiece → Unit_
  | plain text => (text, false)
  | added _ token _ => (token.content, true)

/-- Only white space is stripped, and on the sides that the token says. -/
def Stripped : AddedPiece → Prop
  | plain _ => True
  | added left token right =>
    (∀ c ∈ left, isspace c = true) ∧ (∀ c ∈ right, isspace c = true) ∧
      (left ≠ [] → token.lstrip = true) ∧ (right ≠ [] → token.rstrip = true)

end AddedPiece

/-- A text that is cut at the leftmost and longest added token, from then on in the text
behind it and the white space that it strips. -/
inductive CutsInto (added_tokens : List AddedToken) : Text → List AddedPiece → Prop
  | done : CutsInto added_tokens [] []
  | plain {text : Text} (some : text ≠ []) (absent : ∀ token ∈ added_tokens, token.content ≠ [] →
        ∀ k, ¬OccursAt token.content text k) :
      CutsInto added_tokens text [.plain text]
  | added {front left right rest : Text} {token : AddedToken} {pieces : List AddedPiece}
      (first : FirstAdded added_tokens (front ++ (left ++ token.content ++ right ++ rest))
        (front.length + left.length) token)
      (stripped : (AddedPiece.added left token right).Stripped)
      (later : CutsInto added_tokens rest pieces) :
      CutsInto added_tokens (front ++ (left ++ token.content ++ right ++ rest))
        ((if front = [] then [] else [.plain front]) ++ .added left token right :: pieces)

namespace CutsInto

variable {added_tokens : List AddedToken} {text : Text} {pieces : List AddedPiece}

theorem flatMap_text (cuts : CutsInto added_tokens text pieces) :
    pieces.flatMap AddedPiece.text = text := by
  induction cuts with
  | done => rfl
  | plain some absent => simp [AddedPiece.text]
  | @added front left right rest token pieces first stripped later ih =>
    rw [flatMap_append, flatMap_cons, ih]
    by_cases isNil : front = []
    · simp [isNil, AddedPiece.text]
    · simp [isNil, AddedPiece.text]

theorem stripped (cuts : CutsInto added_tokens text pieces) : ∀ piece ∈ pieces, piece.Stripped := by
  induction cuts with
  | done => simp
  | plain some absent => simp [AddedPiece.Stripped]
  | @added front left right rest token pieces first stripped later ih =>
    intro piece isMem
    rcases mem_append.mp isMem with isFront | isMem
    · by_cases isNil : front = []
      · simp [isNil] at isFront
      · simp only [isNil, if_false, mem_singleton] at isFront
        rw [isFront]
        trivial
    · rcases mem_cons.mp isMem with rfl | isMem
      · exact stripped
      · exact ih piece isMem

theorem absent_of_plain (cuts : CutsInto added_tokens text pieces) {part : Text}
    (isMem : .plain part ∈ pieces) :
    ∀ token ∈ added_tokens, token.content ≠ [] → ∀ k, ¬OccursAt token.content part k := by
  induction cuts with
  | done => cases isMem
  | plain some absent =>
    cases mem_singleton.mp isMem
    exact absent
  | @added front left right rest token pieces first stripped later ih =>
    rcases mem_append.mp isMem with isFront | isMem
    · by_cases isNil : front = []
      · simp [isNil] at isFront
      · simp only [isNil, if_false, mem_singleton, AddedPiece.plain.injEq] at isFront
        subst isFront
        intro other isOther some k occurs
        -- An occurrence in the front would be further left.
        have fits := occurs.length_le some
        have positive := length_pos_of_ne_nil some
        have inWhole : OccursAt other.content
            (part ++ (left ++ token.content ++ right ++ rest)) k := by
          rw [OccursAt, drop_append_of_le_length (by omega)]
          exact List.IsPrefix.trans occurs (prefix_append _ _)
        have leftmost := first.best.leftmost other.content (mem_map_of_mem isOther) some k inWhole
        omega
    · rcases mem_cons.mp isMem with isAdded | isMem
      · cases isAdded
      · exact ih isMem

end CutsInto

/-! ## The split -/

section Split

variable {added_tokens : List AddedToken} {text : Text} {place : Nat} {token : AddedToken}

theorem isspace_left {c : Byte} (isMem : c ∈ (text.take place).drop (token.prefixEnd text place)) :
    isspace c = true ∧ token.lstrip = true := by
  obtain ⟨i, less, rfl⟩ := mem_iff_getElem.mp isMem
  rw [length_drop, length_take] at less
  rw [getElem_drop, getElem_take]
  unfold AddedToken.prefixEnd at less ⊢
  split at less
  · rename_i strips
    have isSpace : isspace (text.getD (trimEnd text 0 place + i) 0) = true :=
      isspace_of_trimEnd (Nat.le_add_right _ i) (by omega)
    rw [getD_eq_getElem?_getD, getElem?_eq_getElem (by omega), Option.getD_some] at isSpace
    simp only [strips, if_true, isSpace, and_self]
  · omega

theorem isspace_right {c : Byte} (isMem : c ∈ (text.drop (place + token.content.length)).take
      (token.nextStart text place - (place + token.content.length))) :
    isspace c = true ∧ token.rstrip = true := by
  unfold AddedToken.nextStart at isMem
  split at isMem
  · rename_i strips
    rw [skipSpaces, Nat.add_sub_cancel_left] at isMem
    refine ⟨?_, strips⟩
    have isPrefix := takeWhile_prefix (p := isspace) (l := text.drop (place + token.content.length))
    rw [← prefix_iff_eq_take.mp isPrefix] at isMem
    exact all_eq_true.mp all_takeWhile c isMem
  · rw [Nat.sub_self, take_zero] at isMem
    cases isMem

theorem parts_eq (isFirst : FirstAdded added_tokens text place token) :
    text = text.take (token.prefixEnd text place) ++
      ((text.take place).drop (token.prefixEnd text place) ++ token.content ++
        (text.drop (place + token.content.length)).take
          (token.nextStart text place - (place + token.content.length)) ++
        text.drop (token.nextStart text place)) := by
  have front := token.prefixEnd_le text place
  have behind := token.le_nextStart text place
  obtain ⟨tail, isTail⟩ := isFirst.best.occurs
  have afterToken : text.drop (place + token.content.length) = tail := by
    rw [← drop_drop, ← isTail, drop_left]
  have rest : text.drop (token.nextStart text place) =
      tail.drop (token.nextStart text place - (place + token.content.length)) := by
    rw [← afterToken, drop_drop]
    congr 1
    omega
  have start : text.take (token.prefixEnd text place) ++
      (text.take place).drop (token.prefixEnd text place) = text.take place := by
    have shorter : text.take (token.prefixEnd text place) =
        (text.take place).take (token.prefixEnd text place) := by
      rw [take_take, Nat.min_eq_left front]
    rw [shorter, take_append_drop]
  rw [afterToken, rest]
  simp only [append_assoc]
  rw [take_append_drop, isTail, ← append_assoc, start, take_append_drop]

theorem cutsInto_unitsOf (added_tokens : List AddedToken) (text : Text) :
    ∃ pieces, CutsInto added_tokens text pieces ∧
      unitsOf added_tokens text = pieces.map AddedPiece.unit_ := by
  induction size : text.length using Nat.strongRecOn generalizing text with
  | ind size ih =>
    rw [unitsOf_eq]
    cases isFound : firstAdded added_tokens text with
    | none =>
      by_cases isNil : text = []
      · subst isNil
        exact ⟨[], .done, rfl⟩
      · refine ⟨[.plain text], .plain isNil fun token isMem => ?_, ?_⟩
        · exact firstAdded_eq_none.mp isFound _ (mem_map_of_mem isMem)
        · dsimp only
          rw [plainUnits, if_neg isNil]
          rfl
    | some found =>
      obtain ⟨place, token⟩ := found
      have isFirst := firstAdded_eq_some.mp isFound
      have positive := length_pos_of_ne_nil isFirst.best.some
      have behind := token.le_nextStart text place
      have fits := isFirst.best.occurs.length_le isFirst.best.some
      obtain ⟨pieces, later, isUnits⟩ := ih (text.drop (token.nextStart text place)).length
        (by rw [length_drop]; omega) _ rfl
      have whole := parts_eq isFirst
      have size' : (text.take (token.prefixEnd text place)).length +
          ((text.take place).drop (token.prefixEnd text place)).length = place := by
        have front := token.prefixEnd_le text place
        rw [length_take, length_drop, length_take]
        omega
      have stripped : (AddedPiece.added ((text.take place).drop (token.prefixEnd text place)) token
          ((text.drop (place + token.content.length)).take
            (token.nextStart text place - (place + token.content.length)))).Stripped := by
        refine ⟨fun c isMem => (isspace_left isMem).1, fun c isMem => (isspace_right isMem).1,
          fun some => ?_, fun some => ?_⟩
        · obtain ⟨c, isMem⟩ := exists_mem_of_ne_nil _ some
          exact (isspace_left isMem).2
        · obtain ⟨c, isMem⟩ := exists_mem_of_ne_nil _ some
          exact (isspace_right isMem).2
      have first := isFirst
      rw [whole] at first
      have cuts := CutsInto.added (by rw [size']; exact first) stripped later
      rw [← whole] at cuts
      refine ⟨_, cuts, ?_⟩
      rw [map_append, map_cons, ← isUnits]
      by_cases isNil : text.take (token.prefixEnd text place) = []
      · simp [plainUnits, isNil, AddedPiece.unit_]
      · simp [plainUnits, isNil, AddedPiece.unit_]

/-- The units of a short text are those of pieces that make up the text: added tokens,
each the leftmost and longest from where the one before it ended, and plain texts without
added tokens. -/
theorem castUnits_cutsInto (added_tokens : List AddedToken) (text : Text)
    (few : added_tokens.length ≤ INT_MAX) (short : text.length ≤ INT_MAX) :
    ∃ pieces, castUnits added_tokens text (text.length + 1) 0 =
        some (pieces.map AddedPiece.unit_) ∧
      CutsInto added_tokens text pieces ∧ pieces.flatMap AddedPiece.text = text ∧
        (∀ piece ∈ pieces, piece.Stripped) ∧
          ∀ unit_ ∈ pieces.map AddedPiece.unit_, unit_.2 = false →
            ∀ token ∈ added_tokens, token.content ≠ [] →
              ∀ k, ¬OccursAt token.content unit_.1 k := by
  obtain ⟨pieces, cuts, isUnits⟩ := cutsInto_unitsOf added_tokens text
  refine ⟨pieces, ?_, cuts, cuts.flatMap_text, cuts.stripped, ?_⟩
  · rw [castUnits_eq short few (Nat.zero_le _) (by omega), ← isUnits, unitsOf]
    exact congrArg some (splitUnits_congr (by omega) (by omega) rfl)
  · rintro unit_ isMem isPlain
    obtain ⟨piece, isPiece, rfl⟩ := mem_map.mp isMem
    cases piece with
    | plain part => exact cuts.absent_of_plain isPiece
    | added left token right => cases isPlain

/-- The white space in front of a token is stripped. -/
theorem castUnits_of_stripped :
    ∃ pieces : List AddedPiece, castUnits [⟨7, [116], false, true, false⟩] [97, 32, 116] 4 0 =
        some (pieces.map AddedPiece.unit_) ∧ pieces.flatMap AddedPiece.text = [97, 32, 116] := by
  obtain ⟨pieces, isUnits, -, whole, -⟩ :=
    castUnits_cutsInto [⟨7, [116], false, true, false⟩] [97, 32, 116] (by decide) (by decide)
  exact ⟨pieces, isUnits, whole⟩

end Split

/-! ## Long texts and empty tokens -/

theorem findFirst_replicate (pos n : Nat) :
    findFirst [116] pos (List.replicate n 120 ++ [116]) = some (pos + n) := by
  induction n generalizing pos with
  | zero => rfl
  | succ n ih =>
    have skips : findFirst [116] pos (List.replicate (n + 1) 120 ++ [116]) =
        findFirst [116] (pos + 1) (List.replicate n 120 ++ [116]) := rfl
    rw [skips, ih]
    congr 1
    omega

/-- A place that is negative as an `int` is not taken for a match. -/
theorem castUnits_of_negative {n : Nat} (negative : toInt n < 0) (fuel : Nat) (id : Int) :
    castUnits [⟨id, [116], false, false, false⟩] (List.replicate n 120 ++ [116]) (fuel + 1) 0 =
      some [(List.replicate n 120 ++ [116], false)] := by
  have found : castFind (List.replicate n 120 ++ [116]) (toInt 0) [[116]] = (toInt n, 0) := by
    have first : findFrom (List.replicate n 120 ++ [116]) (toInt 0) [116] = some n := by
      have isZero : toInt 0 = ((0 : Nat) : Int) := rfl
      rw [isZero, findFrom_eq, drop_zero, findFirst_replicate, Nat.zero_add]
    have unfolded : castFind (List.replicate n 120 ++ [116]) (toInt 0) [[116]] =
        match findFrom (List.replicate n 120 ++ [116]) (toInt 0) [116] with
        | none => (-1, -1)
        | some pos => (toInt pos, 0) := rfl
    rw [unfolded, first]
  rw [castUnits, if_pos (by simp), if_neg (cons_ne_nil _ _), map_singleton, found, drop_zero]
  have notFound : ¬(0 ≤ (toInt n, (0 : Int)).1 ∧ 0 ≤ (toInt n, (0 : Int)).2) := by
    generalize toInt n = place at negative
    rintro ⟨first, -⟩
    dsimp only at first
    omega
  exact if_neg notFound

theorem occursAt_replicate (n : Nat) : OccursAt [116] (List.replicate n 120 ++ [116] : Text) n := by
  rw [OccursAt, drop_append_of_le_length (by rw [length_replicate]),
    drop_eq_nil_of_le (by rw [length_replicate])]
  exact prefix_rfl

/-- An empty added token is never found, nor is one behind 2^31 bytes. -/
theorem plain_with_added :
    (castUnits [⟨7, [], false, false, false⟩] [97] 2 0 = some [([97], false)] ∧
        OccursAt [] ([97] : Text) 0) ∧
      castUnits [⟨7, [116], false, false, false⟩] (List.replicate (2 ^ 31) 120 ++ [116])
          2 0 = some [(List.replicate (2 ^ 31) 120 ++ [116], false)] ∧
        OccursAt [116] (List.replicate (2 ^ 31) 120 ++ [116] : Text) (2 ^ 31) := by
  exact ⟨⟨rfl, nil_prefix⟩, castUnits_of_negative (by decide) 1 7, occursAt_replicate (2 ^ 31)⟩

end Mnn.Mtok
