import Mnn.Foundation.Cutting
import Mnn.Llm.Mtok
import Mnn.Llm.Utf8

/-!
# The regex engine

A text is folded, so that each code point is one byte that tells its category, and a
matcher with backtracking runs on what is folded.  The table of categories, the
parser of patterns and `std::wregex` are taken as they are.
-/

namespace Mnn.Regex

open Mnn.Foundation BitFields Cutting Utf8

/-- A string, as its bytes. -/
abbrev Text := List Byte

/-! ## Categories -/

inductive Category
  | Cn | Lu | Ll | Lt | Lm | Lo | Mn | Mc | Me | Nd | Nl | No
  | Pc | Pd | Ps | Pe | Pi | Pf | Po | Sm | Sc | Sk | So
  | Zs | Zl | Zp | Cc | Cf | Cs | Co
  deriving DecidableEq

section Fold

variable (get_category : Nat → Category)

def is_letter (cp : Nat) : Bool := [.Lu, .Ll, .Lt, .Lm, .Lo].contains (get_category cp)

def is_number (cp : Nat) : Bool := [.Nd, .Nl, .No].contains (get_category cp)

def is_punctuation (cp : Nat) : Bool :=
  [.Pc, .Pd, .Ps, .Pe, .Pi, .Pf, .Po].contains (get_category cp)

def is_symbol (cp : Nat) : Bool := [.Sm, .Sc, .Sk, .So].contains (get_category cp)

def is_whitespace (cp : Nat) : Bool :=
  [0x20, 0x09, 0x0A, 0x0D, 0x0C, 0x0B].contains cp || get_category cp = .Zs

def is_mark (cp : Nat) : Bool := [.Mn, .Mc, .Me].contains (get_category cp)

/-- The byte that is put for a code point. -/
def cp_to_folded (cp : Nat) : Byte :=
  if cp < 0x80 then BitVec.ofNat 8 cp
  else if is_letter get_category cp then 0x01
  else if is_number get_category cp then 0x02
  else if is_whitespace get_category cp then 0x03
  else if is_mark get_category cp then 0x05
  else if is_punctuation get_category cp then 0x06
  else if is_symbol get_category cp then 0x07
  else 0x04

/-- The code points from some offset on, each with its offset. -/
def foldTextFuel : Nat → Nat → Text → List (Nat × Byte)
  | 0, _, _ => []
  | _ + 1, _, [] => []
  | fuel + 1, i, text =>
    let read := utf8_decode text
    (i, cp_to_folded get_category read.2) :: foldTextFuel fuel (i + read.1) (text.drop read.1)

def fold_text (text : Text) : List Byte :=
  (foldTextFuel get_category text.length 0 text).map Prod.snd

/-- The offset of each code point, and the end. -/
def byteOffsets (text : Text) : List Nat :=
  (foldTextFuel get_category text.length 0 text).map Prod.fst ++ [text.length]

end Fold

/-! ## The matcher -/

/--
A node of a pattern; without a greatest number it repeats without limit.  How often a
lookahead repeats is kept like for the others, but not looked at.
-/
inductive RNode
  | cs (test : Byte → Bool) (qmin : Nat) (qmax : Option Nat)
  | grp (alts : List (List RNode)) (qmin : Nat) (qmax : Option Nat)
  | neg_la (alts : List (List RNode)) (qmin : Nat) (qmax : Option Nat)

/-- How many bytes from here on are in the set, up to a number. -/
def countMatches (test : Byte → Bool) : Nat → List Byte → Nat
  | 0, _ => 0
  | _ + 1, [] => 0
  | qmax + 1, c :: rest => if test c then countMatches test qmax rest + 1 else 0

/-- The first result, from so many repetitions down to the least number. -/
def backtrack (result : Nat → Option Nat) (qmin : Nat) : Nat → Option Nat
  | 0 => if qmin = 0 then result 0 else none
  | count + 1 =>
    if qmin ≤ count + 1 then
      (result (count + 1)).or (backtrack result qmin count)
    else
      none

/-- The places after each repetition of a group, which has to consume something. -/
def collect (alternatives : Nat → Option Nat) : Nat → Nat → List Nat
  | 0, place => [place]
  | reps + 1, place =>
    match alternatives place with
    | none => [place]
    | some next =>
      if next ≤ place then [place]
      else place :: collect alternatives reps next

mutual

/-- The place behind a match of all nodes. -/
def match_seq (text : List Byte) : List RNode → Nat → Option Nat
  | [], pos => some pos
  | .neg_la alts _ _ :: nodes, pos =>
    if (try_branches text alts pos).isSome then none else match_seq text nodes pos
  | .cs test qmin qmax :: nodes, pos =>
    let qmax := qmax.getD (text.length - pos)
    let count := countMatches test qmax (text.drop pos)
    backtrack (fun c => match_seq text nodes (pos + c)) qmin count
  | .grp alts qmin qmax :: nodes, pos =>
    let positions :=
      collect (fun p => try_branches text alts p) (qmax.getD 10000) pos
    backtrack (fun c => match_seq text nodes (positions.getD c pos)) qmin (positions.length - 1)

/-- The first branch that matches. -/
def try_branches (text : List Byte) : List (List RNode) → Nat → Option Nat
  | [], _ => none
  | branch :: alts, pos => (match_seq text branch pos).or (try_branches text alts pos)

end

/-! ## Scanning and splitting -/

/-- What the engine takes from elsewhere. -/
structure Engine where
  get_category : Nat → Category
  get_compiled : Text → List (List RNode)
  /-- The matches of `std::wregex`, in bytes. -/
  unicode_regex_find_all : Text → Text → List (Nat × Nat)

/-- Whether the pattern asks for a Unicode property. -/
def hasProperty : Text → Bool
  | 0x5C :: 0x70 :: 0x7B :: _ => true
  | 0x5C :: 0x50 :: 0x7B :: _ => true
  | _ :: rest => hasProperty rest
  | [] => false

def use_wregex (pattern : Text) : Bool :=
  pattern.any (fun c => 0x80 ≤ c.toNat) && !hasProperty pattern

namespace Engine

variable (engine : Engine)

/-- The end of a match that consumes something. -/
def matchEnd (pattern : Text) (folded : List Byte) (pos : Nat) : Option Nat :=
  (try_branches folded (engine.get_compiled pattern) pos).filter fun last => pos < last

/-- The offset of a code point. -/
def offset (text : Text) (i : Nat) : Nat :=
  (byteOffsets engine.get_category text).getD i text.length

/-- A piece for each match and for each code point that is not matched. -/
def scanFuel (pattern text : Text) (folded : List Byte) : Nat → Nat → List Text
  | 0, _ => []
  | fuel + 1, pos =>
    if pos < folded.length then
      let last := (engine.matchEnd pattern folded pos).getD (pos + 1)
      slice text (engine.offset text pos) (engine.offset text last) ::
        scanFuel pattern text folded fuel last
    else
      []

/-- Code points one by one, from one offset to another. -/
def singleFuel (text : Text) (last : Nat) : Nat → Nat → List Text × Nat
  | 0, prev => ([], prev)
  | fuel + 1, prev =>
    if prev < last then
      let r := (utf8_decode (text.drop prev)).1
      let others := singleFuel text last fuel (prev + r)
      (slice text prev (prev + r) :: others.1, others.2)
    else
      ([], prev)

/-- The matches of `std::wregex` with the code points between them. -/
def scanMatches (text : Text) : List (Nat × Nat) → Nat → List Text
  | [], prev => (singleFuel text text.length text.length prev).1
  | (first, last) :: matches_, prev =>
    (singleFuel text first text.length prev).1 ++
      slice text first last :: scanMatches text matches_ last

def regex_scanner (text pattern : Text) : List Text :=
  if text = [] then
    []
  else if use_wregex pattern then
    scanMatches text (engine.unicode_regex_find_all text pattern) 0
  else
    let folded := fold_text engine.get_category text
    engine.scanFuel pattern text folded folded.length 0

/-- A piece of text, and whether the pattern matches it. -/
structure Seg where
  str : Text
  is_match : Bool

/-- The matches in what is folded. -/
def matchesFuel (pattern : Text) (folded : List Byte) : Nat → Nat → List (Nat × Nat)
  | 0, _ => []
  | fuel + 1, pos =>
    if pos < folded.length then
      match engine.matchEnd pattern folded pos with
      | some last => (pos, last) :: matchesFuel pattern folded fuel last
      | none => matchesFuel pattern folded fuel (pos + 1)
    else
      []

/-- The matches and what is between them, up to the last match. -/
def segments (text : Text) (offset : Nat → Nat) : List (Nat × Nat) → Nat → List Seg × Nat
  | [], prev => ([], prev)
  | (first, last) :: matches_, prev =>
    let others := segments text offset matches_ last
    let between : List Seg :=
      if prev < first then [⟨slice text (offset prev) (offset first), false⟩] else []
    (between ++ ⟨slice text (offset first) (offset last), true⟩ :: others.1, others.2)

/-- The segments with what is behind the last match. -/
def allSegments (text : Text) (offset : Nat → Nat) (size : Nat)
    (matches_ : List (Nat × Nat)) : List Seg :=
  let segs := segments text offset matches_ 0
  segs.1 ++ if segs.2 < size then [⟨text.drop (offset segs.2), false⟩] else []

/-- A match is appended to the piece in front of it. -/
def mergeWithPrevious (result : List Text) : List Seg → List Text
  | [] => result
  | seg :: segs =>
    if seg.is_match ∧ result ≠ [] then
      mergeWithPrevious (result.dropLast ++ [result.getLast?.getD [] ++ seg.str]) segs
    else if seg.str ≠ [] then
      mergeWithPrevious (result ++ [seg.str]) segs
    else
      mergeWithPrevious result segs

/-- A match is put in front of the piece behind it. -/
def mergeWithNext (result : List Text) (pending : Text) : List Seg → List Text
  | [] =>
    if pending = [] then result
    else if result = [] then [pending]
    else result.dropLast ++ [result.getLast?.getD [] ++ pending]
  | seg :: segs =>
    if seg.is_match then mergeWithNext result (pending ++ seg.str) segs
    else mergeWithNext (result ++ [pending ++ seg.str]) [] segs

def apply_behavior (segs : List Seg) (invert : Bool) (behavior : Mtok.SplitBehavior) : List Text :=
  let segs := segs.map fun seg =>
    if invert then { seg with is_match := !seg.is_match } else seg
  match behavior with
  | .removed => (segs.filter fun seg => !seg.is_match && seg.str ≠ []).map Seg.str
  | .mergedWithPrevious => mergeWithPrevious [] segs
  | .mergedWithNext => mergeWithNext [] [] segs
  | _ => (segs.filter fun seg => seg.str ≠ []).map Seg.str

def regex_split (text pattern : Text) (invert : Bool) (behavior : Mtok.SplitBehavior) : List Text :=
  if text = [] then
    []
  else if use_wregex pattern then
    apply_behavior (allSegments text id text.length (engine.unicode_regex_find_all text pattern))
      invert behavior
  else
    let folded := fold_text engine.get_category text
    apply_behavior (allSegments text (engine.offset text) folded.length
        (engine.matchesFuel pattern folded folded.length 0))
      invert behavior

end Engine

end Mnn.Regex
