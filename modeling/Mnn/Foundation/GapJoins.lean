import Mathlib

/-!
# Joining pieces, with a gap where some are left out

Chosen places have pieces.  The pieces of places that touch are joined as they
are, others have a gap between them.  A loop over the chosen places, which only
knows the place before, joins their runs; and a place that is chosen later
costs its piece, and a gap more or less, according to its neighbours.
-/

namespace Mnn.Foundation.GapJoins

open List
open Option

section Runs

variable {ι α : Type} (touches : ι → ι → Bool) (gap : List α) (piece : ι → List α)

/-- The gap behind the place before. -/
def gapBehind (previous : Option ι) (place : ι) : List α :=
  match previous with
  | none => []
  | some previous => if touches previous place then [] else gap

/-- The loop that joins the pieces, behind the place before. -/
def joinFrom : Option ι → List ι → List α
  | _, [] => []
  | previous, place :: rest =>
    gapBehind touches gap previous place ++ piece place ++ joinFrom (some place) rest

/-- The runs of places that touch, with gaps in between. -/
def joinRuns (places : List ι) : List α :=
  gap.intercalate ((places.splitBy touches).map (List.flatMap piece))

variable {touches gap piece}

@[simp]
theorem joinFrom_nil (previous : Option ι) : joinFrom touches gap piece previous [] = [] :=
  rfl

theorem joinFrom_cons (previous : Option ι) (place : ι) (rest : List ι) :
    joinFrom touches gap piece previous (place :: rest) =
      gapBehind touches gap previous place ++ piece place ++
        joinFrom touches gap piece (some place) rest :=
  rfl

/-- The place before what is behind some places. -/
def lastOf (previous : Option ι) (places : List ι) : Option ι := places.getLast?.or previous

theorem lastOf_cons (previous : Option ι) (place : ι) (rest : List ι) :
    lastOf previous (place :: rest) = lastOf (some place) rest := by
  unfold lastOf
  cases rest with
  | nil => rfl
  | cons next rest =>
    rw [getLast?_cons_cons]
    cases isLast : (next :: rest).getLast? with
    | none => exact absurd (List.getLast?_eq_none_iff.mp isLast) (by simp)
    | some last => rfl

theorem joinFrom_append (previous : Option ι) (first second : List ι) :
    joinFrom touches gap piece previous (first ++ second) =
      joinFrom touches gap piece previous first ++
        joinFrom touches gap piece (lastOf previous first) second := by
  induction first generalizing previous with
  | nil => rfl
  | cons place rest ih =>
    rw [cons_append, joinFrom_cons, joinFrom_cons, ih, lastOf_cons,
      append_assoc _ (joinFrom _ _ _ _ rest)]

theorem joinFrom_run {previous place : ι} {rest : List ι} (touched : touches previous place = true)
    (isChain : (place :: rest).IsChain fun first second =>
      touches first second = true) :
    joinFrom touches gap piece (some previous) (place :: rest) = (place :: rest).flatMap piece := by
  induction rest generalizing previous place with
  | nil =>
    rw [joinFrom_cons, gapBehind, if_pos touched, joinFrom_nil]
    simp
  | cons next rest ih =>
    rcases isChain_cons_cons.mp isChain with ⟨touches', isChain⟩
    rw [joinFrom_cons, ih touches' isChain, gapBehind, if_pos touched]
    rfl

theorem joinFrom_none_run {run : List ι}
    (isChain : run.IsChain fun first second => touches first second = true) :
    joinFrom touches gap piece none run = run.flatMap piece := by
  cases run with
  | nil => rfl
  | cons place rest =>
    cases rest with
    | nil =>
      rw [joinFrom_cons, joinFrom_nil, gapBehind]
      simp
    | cons next rest =>
      rcases isChain_cons_cons.mp isChain with ⟨touches', isChain⟩
      rw [joinFrom_cons, joinFrom_run touches' isChain]
      rfl

theorem joinFrom_some_of_not {previous place : ι} {rest : List ι}
    (apart : touches previous place = false) :
    joinFrom touches gap piece (some previous) (place :: rest) =
      gap ++ joinFrom touches gap piece none (place :: rest) := by
  rw [joinFrom_cons, joinFrom_cons, gapBehind, gapBehind, apart,
    if_neg Bool.false_ne_true, nil_append, append_assoc]

theorem joinFrom_eq_joinRuns (places : List ι) :
    joinFrom touches gap piece none places = joinRuns touches gap piece places := by
  obtain ⟨runs, isRuns⟩ : ∃ runs, places.splitBy touches = runs := ⟨_, rfl⟩
  rw [joinRuns, isRuns]
  rcases splitBy_eq_iff.mp isRuns with ⟨rfl, notEmpty, chains, apart⟩
  clear isRuns
  induction runs with
  | nil => rfl
  | cons run others ih =>
    have isRun := chains run mem_cons_self
    have others_chains : ∀ run ∈ others, run.IsChain _ := fun run isIn =>
      chains run (mem_cons_of_mem _ isIn)
    have others_notEmpty : [] ∉ others := fun isIn =>
      notEmpty (mem_cons_of_mem _ isIn)
    cases others with
    | nil =>
      rw [flatten_singleton, joinFrom_none_run isRun]
      exact intercalate_singleton.symm
    | cons next others =>
      rcases isChain_cons_cons.mp apart with
        ⟨⟨hasLast, hasHead, isApart⟩, apart⟩
      have rest := ih others_notEmpty others_chains apart
      have isLast : lastOf none run = some (run.getLast hasLast) := by
        rw [lastOf, getLast?_eq_some_getLast hasLast]
        rfl
      rw [flatten_cons, joinFrom_append, joinFrom_none_run isRun,
        isLast, map_cons, map_cons, intercalate_cons_cons,
        ← map_cons, ← rest]
      cases next with
      | nil => exact absurd rfl hasHead
      | cons place behind =>
        rw [head_cons] at isApart
        rw [flatten_cons, cons_append, joinFrom_some_of_not isApart, append_assoc]

end Runs

/-! ## Places that are chosen one by one -/

section Insert

variable {α : Type} {gap : List α} {piece : Nat → List α}

/-- The next place. -/
def isNext (first second : Nat) : Bool :=
  first + 1 == second

/-- What a place costs between its neighbours. -/
def costBetween (gap : List α) (piece : Nat → List α) (before behind : Option Nat)
    (place : Nat) : Int :=
  let left := before.any (isNext · place)
  let right := behind.any (isNext place ·)
  if before = none ∧ behind = none then
    (piece place).length
  else
    (piece place).length + gap.length * (1 - left.toInt - right.toInt)

theorem length_gapBehind (previous place : Nat) :
    ((gapBehind isNext gap (some previous) place).length : Int) =
      gap.length - gap.length * (isNext previous place).toInt := by
  have isGap :
      gapBehind isNext gap (some previous) place =
        if isNext previous place then [] else gap :=
    rfl
  rw [isGap]
  cases isNext previous place with
  | false => rw [if_neg Bool.false_ne_true, Bool.toInt_false, Int.mul_zero,
      Int.sub_zero]
  | true => rw [if_pos rfl, Bool.toInt_true, Int.mul_one, Int.sub_self,
      length_nil, Int.natCast_zero]

/-- What is chosen later costs what its neighbours leave to pay. -/
theorem length_joinFrom_insert {before behind : List Nat} {place : Nat}
    (less : ∀ other ∈ before, other < place) (more : ∀ other ∈ behind, place < other) :
    ((joinFrom isNext gap piece none (before ++ place :: behind)).length : Int) =
      (joinFrom isNext gap piece none (before ++ behind)).length +
        costBetween gap piece before.getLast? behind.head? place := by
  have isLast : lastOf none before = before.getLast? := by
    rw [lastOf, or_none]
  rw [joinFrom_append, joinFrom_append, isLast, joinFrom_cons]
  simp only [length_append, Int.natCast_add]
  cases isBefore : before.getLast? with
  | none =>
    cases behind with
    | nil =>
      simp only [gapBehind, joinFrom_nil, length_nil, costBetween,
        head?_nil, and_self, if_true]
      omega
    | cons next rest =>
      have right := @length_gapBehind α gap place next
      simp only [joinFrom_cons, length_append, Int.natCast_add,
        gapBehind, length_nil, costBetween, head?_cons,
        reduceCtorEq, and_false, if_false, any_none, any_some,
        Bool.toInt_false, Int.sub_zero, Int.mul_sub, Int.mul_one] at right ⊢
      omega
  | some previous =>
    have isLess := less previous (mem_of_getLast? isBefore)
    have left := @length_gapBehind α gap previous place
    cases behind with
    | nil =>
      simp only [joinFrom_nil, length_nil, costBetween,
        head?_nil, reduceCtorEq, false_and, if_false, any_none,
        any_some, Bool.toInt_false, Int.sub_zero, Int.mul_sub,
        Int.mul_one] at left ⊢
      omega
    | cons next rest =>
      have isMore := more next mem_cons_self
      have right := @length_gapBehind α gap place next
      have apart : isNext previous next = false := by
        rw [isNext, beq_eq_false_iff_ne]
        omega
      have between := @length_gapBehind α gap previous next
      rw [apart, Bool.toInt_false, Int.mul_zero, Int.sub_zero] at between
      simp only [joinFrom_cons, length_append, Int.natCast_add,
        costBetween, head?_cons, reduceCtorEq, and_self, if_false,
        any_some, Int.mul_sub, Int.mul_one]
      omega

end Insert

end Mnn.Foundation.GapJoins
