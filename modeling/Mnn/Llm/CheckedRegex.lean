import Mnn.Llm.PatternNumbers

/-!
# The engine with its reads

The matcher, the scanner and the splitter once more, with every read of a text or a
table that can fall outside of it, with the `int` for the length of what is folded, and
with the runs that end in an exception.  `std::wregex` is taken as it is.
-/

variable {text : List Byte}

namespace Mnn.Regex.Unicode

open Mnn.Foundation BitFields Cutting Utf8
open List

/-- What is taken from elsewhere. -/
structure Library where
  get_category : Nat → Category
  /--
  The matches of `std::wregex` for a pattern in a text, each with its place and its
  length, or none where it throws `std::regex_error`.
  -/
  wsregex_iterator : List Nat → List Nat → Option (List (Nat × Nat))

def read {α : Type} (xs : List α) (i : Nat) : Except Fault α :=
  match xs[i]? with
  | some x => pure x
  | none => throw .outside

def substr (text : Text) (pos count : Nat) : Except Fault Text :=
  if text.length < pos then throw .out_of_range
  else pure ((text.drop pos).take count)

/-- `utf8_decode` is given how many bytes there are from here on. -/
def decodeAt (text : Text) (pos : Nat) : Except Fault (Nat × Nat) :=
  if text.length < pos then throw .outside else pure (utf8_decode (text.drop pos))

/-! ## The matcher -/

/-- How many bytes are in the set, of at most so many more. -/
def countLoop (text : List Byte) (len : Nat) (test : Byte → Bool) (pos : Nat) :
    Nat → Nat → Except Fault Nat
  | 0, count => pure count
  | more + 1, count =>
    if pos + count < len then do
      let b ← read text (pos + count)
      if test b then countLoop text len test pos more (count + 1) else pure count
    else
      pure count

/-- The loop down to the least number of repetitions. -/
def backtrackLoop (result : Nat → Except Fault (Option Nat)) (qmin : Nat) :
    Nat → Except Fault (Option Nat)
  | 0 => if qmin = 0 then result 0 else pure none
  | count + 1 =>
    if qmin ≤ count + 1 then do
      let r ← result (count + 1)
      if r.isSome then pure r else backtrackLoop result qmin count
    else
      pure none

/-- The places behind the repetitions of a group. -/
def collectLoop (alternatives : Nat → Except Fault (Option Nat)) :
    Nat → Nat → Except Fault (List Nat)
  | 0, p => pure [p]
  | more + 1, p => do
      let r ← alternatives p
      match r with
      | none => pure [p]
      | some r =>
        if r ≤ p then
          pure [p]
        else do
          let positions ← collectLoop alternatives more r
          pure (p :: positions)

mutual

def match_seq (text : List Byte) (len : Nat) : List RNode → Nat → Except Fault (Option Nat)
  | [], pos => pure (some pos)
  | .neg_la alts _ _ :: nodes, pos => do
      let r ← try_branches text len alts pos
      if r.isSome then pure none else match_seq text len nodes pos
  | .cs test qmin qmax :: nodes, pos => do
      let count ← countLoop text len test pos (qmax.getD (len - pos)) 0
      backtrackLoop (fun c => match_seq text len nodes (pos + c)) qmin count
  | .grp alts qmin qmax :: nodes, pos => do
      let positions ←
        collectLoop (fun p => try_branches text len alts p) (qmax.getD 10000) pos
      backtrackLoop (fun c => do
          let p ← read positions c
          match_seq text len nodes p)
        qmin (positions.length - 1)

def try_branches (text : List Byte) (len : Nat) :
    List (List RNode) → Nat → Except Fault (Option Nat)
  | [], _ => pure none
  | branch :: alts, pos => do
      let r ← match_seq text len branch pos
      if r.isSome then pure r else try_branches text len alts pos

end

/-! ## The scanner -/

/-- The code points of a text, with their offsets. -/
def wideFuel : Nat → Nat → Text → List (Nat × Nat)
  | 0, _, _ => []
  | _ + 1, _, [] => []
  | fuel + 1, i, text =>
    let read := utf8_decode text
    (i, read.2) :: wideFuel fuel (i + read.1) (text.drop read.1)

/-- The code points, and the offset of each and of the end. -/
def utf8_to_wstring (s : Text) : List Nat × List Nat :=
  ((wideFuel s.length 0 s).map Prod.snd,
    (wideFuel s.length 0 s).map Prod.fst ++ [s.length])

/-- The `int` that a size is turned into. -/
def toInt (size : Nat) : Int := (BitVec.ofNat 32 size).toInt

/-- A piece for each code point from one place to another. -/
def singleLoop (text : Text) (last : Nat) : Nat → Nat → Except Fault (List Text × Nat)
  | 0, _ => throw .outOfFuel
  | fuel + 1, prev =>
    if prev < last then do
      let r ← decodeAt text prev
      let piece ← substr text prev r.1
      let others ← singleLoop text last fuel (prev + r.1)
      pure (piece :: others.1, others.2)
    else
      pure ([], prev)

/-- The matches of `std::wregex` with the code points between them. -/
def wregexPieces (text : Text) : List (Nat × Nat) → Nat → Except Fault (List Text)
  | [], prev => do
      let single ← singleLoop text text.length (text.length + 1) prev
      pure single.1
  | (first, second) :: matches_, prev => do
      let single ← singleLoop text first (text.length + 1) prev
      let piece ← substr text first (second - first)
      let others ← wregexPieces text matches_ second
      pure (single.1 ++ piece :: others)

section Scanner

variable (branches : List (List RNode)) (text : Text) (folded : List Byte)
  (byte_offsets : List Nat) (flen : Int)

/-- The end of a match that consumes something, from this place on. -/
def matchEnd (pos : Nat) : Except Fault (Option Nat) := do
  let r ← try_branches folded flen.toNat branches pos
  pure (r.filter fun last => pos < last)

def scanLoop : Nat → Nat → Except Fault (List Text)
  | 0, _ => throw .outOfFuel
  | fuel + 1, pos =>
    if (pos : Int) < flen then do
      let isEnd ← matchEnd branches folded flen pos
      let last := isEnd.getD (pos + 1)
      let start ← read byte_offsets pos
      let stop ← read byte_offsets last
      let piece ← substr text start (stop - start)
      let pieces ← scanLoop fuel last
      pure (piece :: pieces)
    else
      pure []

def matchLoop : Nat → Nat → Except Fault (List (Nat × Nat))
  | 0, _ => throw .outOfFuel
  | fuel + 1, pos =>
    if (pos : Int) < flen then do
      let isEnd ← matchEnd branches folded flen pos
      match isEnd with
      | some last => do
          let matches_ ← matchLoop fuel last
          pure ((pos, last) :: matches_)
      | none => matchLoop fuel (pos + 1)
    else
      pure []

end Scanner

/-! ## Segments -/

open Engine in
/-- The segments up to the last match, where a place has an offset in the text. -/
def segmentLoop (text : Text) (offset : Nat → Except Fault Nat) :
    List (Nat × Nat) → Nat → Except Fault (List Seg × Nat)
  | [], prev => pure ([], prev)
  | (first, second) :: matches_, prev => do
      let start ← offset first
      let between ←
        (if prev < first then do
          let from_ ← offset prev
          let piece ← substr text from_ (start - from_)
          pure [⟨piece, false⟩]
        else
          pure [] : Except Fault (List Seg))
      let stop ← offset second
      let piece ← substr text start (stop - start)
      let others ← segmentLoop text offset matches_ second
      pure (between ++ ⟨piece, true⟩ :: others.1, others.2)

open Engine in
def allSegments (text : Text) (offset : Nat → Except Fault Nat) (size : Int)
    (matches_ : List (Nat × Nat)) : Except Fault (List Seg) := do
  let segs ← segmentLoop text offset matches_ 0
  if (segs.2 : Int) < size then do
    let from_ ← offset segs.2
    let piece ← substr text from_ text.length
    pure (segs.1 ++ [⟨piece, false⟩])
  else
    pure segs.1

namespace Library

variable (lib : Library)

def unicode_regex_find_all (text pattern : Text) : Except Fault (List (Nat × Nat)) := do
  let wide := utf8_to_wstring text
  match lib.wsregex_iterator (utf8_to_wstring pattern).1 wide.1 with
  | none => throw .regex_error
  | some matches_ =>
    matches_.mapM fun found => do
      let first ← read wide.2 found.1
      let second ← read wide.2 (found.1 + found.2)
      pure (first, second)

def regex_scanner (text pattern : Text) : Except Fault (List Text) :=
  if text = [] then
    pure []
  else if use_wregex pattern then do
    let matches_ ← lib.unicode_regex_find_all text pattern
    wregexPieces text matches_ 0
  else do
    let branches ← get_compiled lib.get_category pattern
    let folded := fold_text lib.get_category text
    scanLoop branches text folded (byteOffsets lib.get_category text)
      (toInt folded.length) (folded.length + 1) 0

def regex_split (text pattern : Text) (invert : Bool) (behavior : Mtok.SplitBehavior) :
    Except Fault (List Text) :=
  if text = [] then
    pure []
  else if use_wregex pattern then do
    let matches_ ← lib.unicode_regex_find_all text pattern
    let segs ← allSegments text pure text.length matches_
    pure (Engine.apply_behavior segs invert behavior)
  else do
    let branches ← get_compiled lib.get_category pattern
    let folded := fold_text lib.get_category text
    let matches_ ←
      matchLoop branches folded (toInt folded.length) (folded.length + 1) 0
    let segs ← allSegments text (read (byteOffsets lib.get_category text))
      (toInt folded.length) matches_
    pure (Engine.apply_behavior segs invert behavior)

end Library

/-!
# The reads of the engine are inside

A matcher that starts inside of what is folded reads inside of it, and the loops of the
scanner and of the splitter come to an end.  The runs with their reads are those
without them.
-/

theorem read_getD {α : Type} {xs : List α} {i : Nat} (d : α) (less : i < xs.length) :
    read xs i = .ok (xs.getD i d) := by
  rw [read, getD_eq_getElem?_getD, List.getElem?_eq_getElem less]
  rfl

theorem substr_ok {text : Text} {pos : Nat} (count : Nat) (le : pos ≤ text.length) :
    substr text pos count = .ok ((text.drop pos).take count) :=
  if_neg (Nat.not_lt_of_le le)

theorem decodeAt_ok {text : Text} {pos : Nat} (le : pos ≤ text.length) :
    decodeAt text pos = .ok (utf8_decode (text.drop pos)) :=
  if_neg (Nat.not_lt_of_le le)

/-! ## The matcher -/

theorem countLoop_ok {len : Nat} (inside : len ≤ text.length)
    (test : Byte → Bool) (pos more count : Nat) :
    countLoop text len test pos more count =
      .ok (count + countMatches test more ((text.take len).drop (pos + count))) := by
  induction more generalizing count with
  | zero => rfl
  | succ more ih =>
    rw [countLoop]
    split
    · rename_i less
      have here : pos + count < (text.take len).length := by
        rw [length_take]
        omega
      have isByte : (text.take len)[pos + count] = text.getD (pos + count) 0 := by
        rw [getElem_take, getD_eq_getElem?_getD,
          List.getElem?_eq_getElem (by omega), Option.getD_some]
      rw [read_getD 0 (by omega), drop_eq_getElem_cons here, countMatches, isByte]
      show (if test (text.getD (pos + count) 0) then _ else _ : Except Fault Nat) = _
      split
      · rw [ih]
        congr 1
        rw [add_assoc pos count 1]
        omega
      · rfl
    · rename_i notLess
      rw [drop_of_length_le (by rw [length_take]; omega), countMatches]
      rfl

theorem backtrackLoop_ok {result : Nat → Except Fault (Option Nat)}
    {pureResult : Nat → Option Nat} (qmin : Nat) {count : Nat}
    (same : ∀ c ≤ count, result c = .ok (pureResult c)) :
    backtrackLoop result qmin count = .ok (backtrack pureResult qmin count) := by
  induction count with
  | zero =>
    rw [backtrackLoop, backtrack]
    split
    · exact same 0 (le_refl 0)
    · rfl
  | succ count ih =>
    rw [backtrackLoop, backtrack]
    split
    · rw [same (count + 1) (le_refl _)]
      cases pureResult (count + 1) with
      | some r => rfl
      | none => exact ih fun c le => same c (Nat.le_succ_of_le le)
    · rfl

theorem collectLoop_ok {alternatives : Nat → Except Fault (Option Nat)}
    {pureAlternatives : Nat → Option Nat} {size : Nat}
    (same : ∀ p ≤ size, alternatives p = .ok (pureAlternatives p))
    (bounded : ∀ p last, p ≤ size → pureAlternatives p = some last → last ≤ size)
    {more p : Nat} (inside : p ≤ size) :
    collectLoop alternatives more p = .ok (collect pureAlternatives more p) := by
  induction more generalizing p with
  | zero => rfl
  | succ more ih =>
    rw [collectLoop, collect, same p inside]
    cases isNext : pureAlternatives p with
    | none => rfl
    | some r =>
      show (if r ≤ p then _ else _ : Except Fault (List Nat)) = .ok (if r ≤ p then _ else _)
      split
      · rfl
      · rw [ih (bounded p r inside isNext)]
        rfl

theorem length_collect_pos (alternatives : Nat → Option Nat) (more p : Nat) :
    0 < (collect alternatives more p).length := by
  cases more with
  | zero => exact one_pos
  | succ more =>
    rw [collect]
    split
    · exact one_pos
    · split
      · exact one_pos
      · exact Nat.succ_pos _

mutual

theorem match_seq_ok {len : Nat} (inside : len ≤ text.length)
    (nodes : List RNode) {pos : Nat} (le : pos ≤ len) :
    match_seq text len nodes pos = .ok (Regex.match_seq (text.take len) nodes pos) := by
  have length : (text.take len).length = len := by
    rw [length_take, min_eq_left inside]
  match nodes with
  | [] =>
    rw [match_seq, Regex.match_seq]
    rfl
  | .neg_la alts _ _ :: nodes =>
    rw [match_seq, Regex.match_seq, try_branches_ok inside alts le, match_seq_ok inside nodes le]
    show (if _ then _ else _ : Except Fault (Option Nat)) = .ok (if _ then _ else _)
    split
    · rfl
    · rfl
  | .cs test qmin qmax :: nodes =>
    rw [match_seq, Regex.match_seq, countLoop_ok inside, length]
    show backtrackLoop _ _ (0 + _) = _
    rw [zero_add, add_zero]
    refine backtrackLoop_ok qmin fun c few => match_seq_ok inside nodes ?_
    have most := countMatches_le test (qmax.getD (len - pos)) ((text.take len).drop pos)
    rw [length_drop, length] at most
    omega
  | .grp alts qmin qmax :: nodes =>
    rw [match_seq, Regex.match_seq]
    have bounded (p last : Nat) (le : p ≤ len)
        (found : Regex.try_branches (text.take len) alts p = some last) :
        last ≤ len := by
      have bounds := try_branches_bounds (text.take len) alts (by rw [length]; exact le) found
      rw [length] at bounds
      exact bounds.2
    rw [collectLoop_ok (fun p le => try_branches_ok inside alts le) bounded le]
    have members := @mem_collect len (fun p => Regex.try_branches (text.take len) alts p) bounded
      (qmax.getD 10000) pos le
    have some := length_collect_pos
      (fun p => Regex.try_branches (text.take len) alts p) (qmax.getD 10000) pos
    generalize collect (fun p => Regex.try_branches (text.take len) alts p)
      (qmax.getD 10000) pos = positions at members some
    refine backtrackLoop_ok qmin fun c few => ?_
    have less : c < positions.length := by omega
    rw [read_getD pos less]
    refine match_seq_ok inside nodes (members _ ?_).2
    rw [getD_eq_getElem?_getD, List.getElem?_eq_getElem less, Option.getD_some]
    exact getElem_mem less

theorem try_branches_ok {len : Nat} (inside : len ≤ text.length)
    (alts : List (List RNode)) {pos : Nat} (le : pos ≤ len) :
    try_branches text len alts pos =
      .ok (Regex.try_branches (text.take len) alts pos) := by
  match alts with
  | [] =>
    rw [try_branches, Regex.try_branches]
    rfl
  | branch :: alts =>
    rw [try_branches, Regex.try_branches, match_seq_ok inside branch le,
      try_branches_ok inside alts le]
    cases Regex.match_seq (text.take len) branch pos with
    | none => rfl
    | some last => rfl

end

end Mnn.Regex.Unicode
