import Mnn.Foundation.Backtracking
import Mnn.Llm.Pretokens

/-!
# The engine and backtracking

A matcher that backtracks fully goes all the ways through a pattern, in the order of its
branches and with as many repetitions as possible first.  The engine goes only the first
way through each repetition of a group, at most 10000 times where there is no limit,
stops at a repetition that stays in place, and takes a lookahead once.  What it finds is
the first way of all, as long as none of this has to be taken back.
-/

variable {text : List Byte}

namespace Mnn.Regex

open Mnn.Foundation BitFields Backtracking
open List
open Nat

/-- The way over a byte of the set. -/
def byteWays (text : List Byte) (test : Byte → Bool) (place : Nat) : List Nat :=
  if text[place]?.any test then [place + 1] else []

mutual

/-- Where the ways through all nodes end, the first way in front. -/
def seqWays (text : List Byte) : List RNode → Nat → List Nat
  | [], pos => [pos]
  | .cs test qmin qmax :: nodes, pos =>
    (greedy (byteWays text test) text.length qmin qmax pos).flatMap fun p =>
      seqWays text nodes p
  | .grp alts qmin qmax :: nodes, pos =>
    (greedy (fun p => altWays text alts p) text.length qmin qmax pos).flatMap fun p =>
      seqWays text nodes p
  | .neg_la alts qmin qmax :: nodes, pos =>
    (greedy (fun p => if altWays text alts p = [] then [p] else []) text.length qmin qmax
      pos).flatMap fun p => seqWays text nodes p

def altWays (text : List Byte) : List (List RNode) → Nat → List Nat
  | [], _ => []
  | branch :: alts, pos => seqWays text branch pos ++ altWays text alts pos

end

/-! ## What the engine keeps -/

/-- Whether there is a way through the nodes. -/
def goesOn (text : List Byte) (nodes : List RNode) (pos : Nat) : Bool :=
  (seqWays text nodes pos).head?.isSome

/-- The places between repetitions, each of them the first way from the one before. -/
def firstPlaces (ways : Nat → List Nat) (limit pos : Nat) : List Nat :=
  collect (fun p => (ways p).head?) limit pos

/-- The places behind at least so many repetitions, from the last one on. -/
def keptEnds (qmin : Nat) (places : List Nat) : List Nat := (places.drop qmin).reverse

/--
Whether the first of these ends that it can be gone on from is kept as the first one.
-/
def keepsFirst (text : List Byte) (nodes : List RNode) (ends kept : List Nat) : Bool :=
  ends.find? (goesOn text nodes) == kept.find? (goesOn text nodes)

mutual

/-- Nothing that is settled inside of a group has to be taken back. -/
def seqSettled (text : List Byte) : List RNode → Nat → Bool
  | [], _ => true
  | .cs test qmin qmax :: nodes, pos =>
    (tried (goesOn text nodes) (greedy (byteWays text test) text.length qmin qmax pos)).all fun p =>
        seqSettled text nodes p
  | .grp alts qmin qmax :: nodes, pos =>
    let places := firstPlaces (altWays text alts) (qmax.getD 10000) pos
    (places.take (qmax.getD 10000)).all (fun p => altSettled text alts p) &&
      keepsFirst text nodes (greedy (altWays text alts) text.length qmin qmax pos)
        (keptEnds qmin places) &&
      (tried (goesOn text nodes) (keptEnds qmin places)).all fun p =>
        seqSettled text nodes p
  | .neg_la alts qmin qmax :: nodes, pos =>
    let look := fun p => if altWays text alts p = [] then [p] else []
    altSettled text alts pos &&
      keepsFirst text nodes (greedy look text.length qmin qmax pos) (look pos) &&
      (tried (goesOn text nodes) (look pos)).all fun p => seqSettled text nodes p

def altSettled (text : List Byte) : List (List RNode) → Nat → Bool
  | [], _ => true
  | branch :: alts, pos =>
    seqSettled text branch pos && (goesOn text branch pos || altSettled text alts pos)

end

theorem backtrack_eq (result : Nat → Option Nat) (qmin count : Nat) :
    backtrack result qmin count =
      ((List.range (count + 1)).drop qmin).reverse.findSome? result := by
  induction count with
  | zero =>
    rw [backtrack]
    split
    · rename_i none
      rw [none]
      cases isResult : result 0 with
      | none => simp [isResult]
      | some last => simp [isResult]
    · rename_i some
      rw [drop_of_length_le (by rw [length_range]; omega)]
      rfl
  | succ count ih =>
    rw [backtrack]
    split
    · rename_i le
      rw [range_succ, drop_append_of_le_length (by
        rw [length_range]
        exact le), reverse_append, reverse_singleton, singleton_append,
        findSome?_cons, ih]
      cases result (count + 1) with
      | none => rfl
      | some last => rfl
    · rename_i large
      rw [drop_of_length_le (by rw [length_range]; omega)]
      rfl

/-- The loop over the places behind the repetitions of a group. -/
theorem backtrack_places (result : Nat → Option Nat) (qmin pos : Nat) {places : List Nat}
    (some : 0 < places.length) :
    backtrack (fun c => result (places.getD c pos)) qmin (places.length - 1) =
      (keptEnds qmin places).findSome? result := by
  have isMap : places = (List.range places.length).map fun c => places.getD c pos := by
    refine ext_getElem (by rw [length_map, length_range]) fun i less _ => ?_
    rw [getElem_map, getElem_range, getD_eq_getElem?_getD,
      getElem?_eq_getElem less, Option.getD_some]
  rw [backtrack_eq, Nat.sub_add_cancel some, keptEnds]
  conv => rhs; rw [isMap]
  rw [← map_drop, ← map_reverse, findSome?_map]
  rfl

theorem collect_congr {alternatives alternatives' : Nat → Option Nat} {limit pos : Nat}
    (same : ∀ p ∈ (collect alternatives' limit pos).take limit, alternatives p = alternatives' p) :
    collect alternatives limit pos = collect alternatives' limit pos := by
  induction limit generalizing pos with
  | zero => rfl
  | succ limit ih =>
    rw [collect] at same ⊢
    rw [collect]
    cases isNext : alternatives' pos with
    | none =>
      rw [isNext] at same
      have here := same pos mem_cons_self
      rw [here, isNext]
    | some next =>
      rw [isNext] at same
      dsimp only at same
      split at same
      · rename_i stays
        have here := same pos mem_cons_self
        rw [here, isNext]
        show (if next ≤ pos then _ else _) = if next ≤ pos then _ else _
        rw [if_pos stays, if_pos stays]
      · rename_i forward
        rw [take_succ_cons] at same
        have here := same pos mem_cons_self
        rw [here, isNext]
        show (if next ≤ pos then _ else _) = if next ≤ pos then _ else _
        rw [if_neg forward, if_neg forward, ih fun p isIn => same p (mem_cons_of_mem pos isIn)]

/-! ## Sets of bytes -/

section Bytes

variable {text : List Byte} {test : Byte → Bool}

theorem byteWays_of_drop {p : Nat} :
    byteWays text test p = if (text.drop p).head?.any test then [p + 1] else [] := by
  rw [byteWays, head?_drop]

theorem countMatches_succ (more p : Nat) :
    countMatches test (more + 1) (text.drop p) =
      if (text.drop p).head?.any test then
        countMatches test more (text.drop (p + 1)) + 1
      else
        0 := by
  rw [← tail_drop]
  cases text.drop p with
  | nil => rfl
  | cons c rest => rfl

theorem further_bytes (more p : Nat) :
    further (byteWays text test) more p =
      (List.range (countMatches test more (text.drop p) + 1)).reverse.map (p + ·) := by
  induction more generalizing p with
  | zero => rfl
  | succ more ih =>
    rw [further, countMatches_succ, byteWays_of_drop]
    split
    · have forward : [p + 1].filter (p < ·) = [p + 1] := by simp
      rw [forward, flatMap_singleton, ih,
        @List.range_succ_eq_map (countMatches test more (text.drop (p + 1)) + 1),
        reverse_cons, map_append, ← map_reverse, map_map]
      congr 1
      refine map_congr_left fun c _ => ?_
      show p + 1 + c = p + (c + 1)
      omega
    · rfl

theorem mandatory_bytes (after : Nat → List Nat) (count p : Nat) :
    mandatory (byteWays text test) after count p =
      if countMatches test count (text.drop p) = count then after (p + count) else [] := by
  induction count generalizing p with
  | zero => rfl
  | succ count ih =>
    rw [mandatory, countMatches_succ, byteWays_of_drop]
    split
    · rw [flatMap_singleton, ih]
      by_cases all : countMatches test count (text.drop (p + 1)) = count
      · rw [if_pos all, if_pos (congrArg (· + 1) all), add_right_comm]
        rfl
      · rw [if_neg all, if_neg fun all' => all (succ.inj all')]
    · rw [if_neg (succ_ne_zero count).symm]
      rfl

theorem countMatches_add (first more p : Nat) :
    countMatches test (first + more) (text.drop p) =
      if countMatches test first (text.drop p) = first then
        first + countMatches test more (text.drop (p + first))
      else
        countMatches test first (text.drop p) := by
  induction first generalizing p with
  | zero =>
    rw [zero_add, countMatches, if_pos rfl, zero_add]
    rfl
  | succ first ih =>
    rw [add_right_comm, countMatches_succ, countMatches_succ, ih]
    split
    · by_cases all : countMatches test first (text.drop (p + 1)) = first
      · rw [if_pos all, if_pos (congrArg (· + 1) all), add_right_comm p 1, add_right_comm]
        rfl
      · rw [if_neg all, if_neg fun all' => all (succ.inj all')]
    · rw [if_neg (succ_ne_zero first).symm]

theorem countMatches_le_most (test : Byte → Bool) (most : Nat) (rest : List Byte) :
    countMatches test most rest ≤ most := by
  induction most generalizing rest with
  | zero => exact le_refl 0
  | succ most ih =>
    cases rest with
    | nil => exact zero_le _
    | cons c rest =>
      rw [countMatches]
      split
      · exact succ_le_succ (ih rest)
      · exact zero_le _

/-- The greatest number is split into the least one and what is behind it. -/
theorem mandatory_further {qmin most : Nat} (le : qmin ≤ most) (pos : Nat) :
    mandatory (byteWays text test) (further (byteWays text test) (most - qmin)) qmin pos =
      ((List.range (countMatches test most (text.drop pos) + 1)).drop qmin).reverse.map
        (pos + ·) := by
  have both := @countMatches_add text test qmin (most - qmin) pos
  rw [Nat.add_sub_cancel' le] at both
  rw [mandatory_bytes, both]
  by_cases all : countMatches test qmin (text.drop pos) = qmin
  · rw [if_pos all, if_pos all, further_bytes, add_assoc qmin, @List.range_add qmin,
      drop_left' length_range, ← map_reverse, map_map]
    refine map_congr_left fun c _ => ?_
    exact add_assoc pos qmin c
  · have least := countMatches_le_most test qmin (text.drop pos)
    rw [if_neg all, if_neg all, drop_of_length_le (by
      rw [length_range]
      omega)]
    rfl

theorem greedy_bytes (qmin : Nat) (qmax : Option Nat) (pos : Nat) :
    greedy (byteWays text test) text.length qmin qmax pos =
      ((List.range (countMatches test (qmax.getD (text.length - pos)) (text.drop pos) +
        1)).drop qmin).reverse.map (pos + ·) := by
  cases qmax with
  | some qmax =>
    rw [Option.getD_some, greedy]
    split
    · rename_i le
      exact mandatory_further le pos
    · rename_i large
      have most := countMatches_le_most test qmax (text.drop pos)
      rw [drop_of_length_le (by
        rw [length_range]
        omega)]
      rfl
  | none =>
    rw [Option.getD_none, greedy]
    by_cases le : qmin ≤ text.length - pos
    · rw [← mandatory_further le, mandatory_bytes, mandatory_bytes, Nat.sub_sub]
    · have few := countMatches_le test (text.length - pos) (text.drop pos)
      have few' := countMatches_le test qmin (text.drop pos)
      rw [length_drop] at few few'
      rw [mandatory_bytes, if_neg (by omega), drop_of_length_le (by
        rw [length_range]
        omega)]
      rfl

end Bytes

/-! ## The first way -/

/-- Results of the nodes behind, in the order in which the ends are tried. -/
theorem head_flatMap (text : List Byte) (nodes : List RNode) (ends : List Nat) :
    (ends.flatMap fun p => seqWays text nodes p).head? =
      (ends.find? (goesOn text nodes)).bind fun p => (seqWays text nodes p).head? := by
  rw [head?_flatMap]
  exact findSome?_eq_bind ends

/-- The ends that are kept give the first way if the first of them is kept. -/
theorem findSome_kept {nodes : List RNode} {ends kept : List Nat}
    (keeps : keepsFirst text nodes ends kept = true)
    (same : ∀ p ∈ tried (goesOn text nodes) kept,
      match_seq text nodes p = (seqWays text nodes p).head?) :
    kept.findSome? (match_seq text nodes) = (ends.flatMap fun p => seqWays text nodes p).head? := by
  rw [head_flatMap, eq_of_beq keeps, findSome?_congr_tried same]
  exact findSome?_eq_bind kept

theorem keepsFirst_self (text : List Byte) (nodes : List RNode) (ends : List Nat) :
    keepsFirst text nodes ends ends = true :=
  beq_self_eq_true _

mutual

theorem match_seq_eq_head (nodes : List RNode) {pos : Nat}
    (settled : seqSettled text nodes pos = true) :
    match_seq text nodes pos = (seqWays text nodes pos).head? := by
  match nodes with
  | [] =>
    rw [match_seq, seqWays]
    rfl
  | .neg_la alts qmin qmax :: nodes =>
    rw [seqSettled] at settled
    obtain ⟨⟨inner, keeps⟩, behind⟩ : (altSettled text alts pos = true ∧ _ = true) ∧ _ = true := by
      simpa only [Bool.and_eq_true] using settled
    rw [all_eq_true] at behind
    rw [match_seq, seqWays, try_branches_eq_head alts inner,
      ← findSome_kept keeps fun p isTried => match_seq_eq_head nodes (behind p isTried)]
    cases altWays text alts pos with
    | nil => exact List.findSome?_singleton.symm
    | cons first others => rfl
  | .cs test qmin qmax :: nodes =>
    rw [seqSettled, all_eq_true] at settled
    rw [match_seq, seqWays, backtrack_eq, ← findSome_kept (keepsFirst_self ..) fun p isTried =>
      match_seq_eq_head nodes (settled p isTried), greedy_bytes, findSome?_map]
    rfl
  | .grp alts qmin qmax :: nodes =>
    rw [seqSettled] at settled
    obtain ⟨⟨inner, keeps⟩, behind⟩ : (_ = true ∧ _ = true) ∧ _ = true := by
      simpa only [Bool.and_eq_true] using settled
    rw [all_eq_true] at inner behind
    have places : collect (fun p => try_branches text alts p) (qmax.getD 10000) pos =
        firstPlaces (altWays text alts) (qmax.getD 10000) pos :=
      collect_congr fun p isIn => try_branches_eq_head alts (inner p isIn)
    have some : 0 < (firstPlaces (altWays text alts) (qmax.getD 10000) pos).length :=
      Unicode.length_collect_pos ..
    rw [match_seq, seqWays, places, backtrack_places _ _ _ some]
    exact findSome_kept keeps fun p isTried => match_seq_eq_head nodes (behind p isTried)

theorem try_branches_eq_head (alts : List (List RNode)) {pos : Nat}
    (settled : altSettled text alts pos = true) :
    try_branches text alts pos = (altWays text alts pos).head? := by
  match alts with
  | [] =>
    rw [try_branches, altWays]
    rfl
  | branch :: alts =>
    rw [altSettled, Bool.and_eq_true, Bool.or_eq_true] at settled
    rw [try_branches, altWays, match_seq_eq_head branch settled.1, head?_append]
    cases isFirst : (seqWays text branch pos).head? with
    | some first => rfl
    | none =>
      have others := settled.2.resolve_left fun goes => by
        rw [goesOn, isFirst] at goes
        exact Bool.false_ne_true goes
      rw [try_branches_eq_head alts others]

end

/--
What the engine finds is the first way, and there is none if and only if it finds none,
as long as nothing inside of a group has to be taken back.
-/
theorem try_branches_first_way {text : List Byte} {alts : List (List RNode)} {pos : Nat}
    (settled : altSettled text alts pos = true) :
    try_branches text alts pos = (altWays text alts pos).head? ∧
      (try_branches text alts pos = none ↔ altWays text alts pos = []) := by
  rw [try_branches_eq_head alts settled, head?_eq_none_iff]
  exact ⟨rfl, Iff.rfl⟩

/-- The alternatives of a group, the same at each repetition. -/
theorem first_way_of_repeated :
    ∃ alts, parse (fun _ => .Cn) (ascii "(?:a|b)+c") = .ok alts ∧
      try_branches (ascii "abbc") alts 0 = (altWays (ascii "abbc") alts 0).head? :=
  ⟨_, rfl, (try_branches_first_way (by decide +kernel)).1⟩

/-- A branch of a group that is too short is not taken back for a longer one. -/
theorem not_first_way_behind_group :
    ¬∀ (get_category : Nat → Category) (pattern : Text) (alts : List (List RNode))
      (text : List Byte) (pos : Nat), parse get_category pattern = .ok alts →
        try_branches text alts pos = (altWays text alts pos).head? := by
  intro all
  have same := all (fun _ => .Cn) (ascii "(?:a|ab)c") _ (ascii "abc") 0 rfl
  exact absurd same (by decide +kernel)

end Mnn.Regex
