import Mathlib

/-!
# Ranges of integers

The integers from one bound towards another, with a step of either sign, and the
loop that runs through them until a number does not fit.
-/

namespace Mnn.Foundation.IntRanges

open List
open Nat

/-! ## Ranges -/

/-- A loop with this step goes on from here. -/
def Goes (stop step first : Int) : Prop := 0 < step ∧ first < stop ∨ step < 0 ∧ stop < first

instance (stop step first : Int) : Decidable (Goes stop step first) :=
  inferInstanceAs (Decidable (_ ∨ _))

/-- How many steps of a width lead over a span. -/
def steps (span width : Int) : Nat := ((span + (width - 1)) / width).toNat

/-- How many numbers a range has. -/
def count (first stop step : Int) : Nat :=
  if 0 < step then steps (stop - first) step else steps (first - stop) (-step)

/-- `range(first, stop, step)` -/
def range (first stop step : Int) : List Int :=
  (List.range (count first stop step)).map fun n : Nat => first + (n : Int) * step

theorem steps_of_nonpos {span width : Int} (some : 0 < width) (none : span ≤ 0) :
    steps span width = 0 := by
  have less : (span + (width - 1)) / width < 1 := Int.ediv_lt_of_lt_mul some (by omega)
  rw [steps]
  omega

theorem steps_of_pos {span width : Int} (some : 0 < width) (positive : 0 < span) :
    steps span width = steps (span - width) width + 1 := by
  have split : span + (width - 1) = span - width + (width - 1) + width := by ring
  have least : 0 ≤ (span - width + (width - 1)) / width := Int.ediv_nonneg (by omega) some.le
  rw [steps, steps, split, Int.add_ediv_of_dvd_right (Int.dvd_refl width), Int.ediv_self some.ne']
  omega

variable {first stop step : Int}

theorem range_of_not_goes (different : step ≠ 0) (rests : ¬Goes stop step first) :
    range first stop step = [] := by
  unfold Goes at rests
  have none : count first stop step = 0 := by
    unfold count
    split_ifs with up
    · exact steps_of_nonpos up (by omega)
    · exact steps_of_nonpos (by omega) (by omega)
  rw [range, none, range_zero, map_nil]

theorem range_of_goes (goes : Goes stop step first) :
    range first stop step = first :: range (first + step) stop step := by
  have one : count first stop step = count (first + step) stop step + 1 := by
    unfold Goes at goes
    unfold count
    split_ifs with up
    · rw [steps_of_pos up (by omega)]
      congr 2
      ring
    · rw [steps_of_pos (by omega) (by omega)]
      congr 2
      ring
  rw [range, one, range_succ_eq_map, map_cons, map_map, range]
  congr 1
  · simp
  · refine map_congr_left fun n _ => ?_
    simp only [Function.comp_apply, succ_eq_add_one]
    push_cast
    ring

theorem range_induction (stop step : Int) {motive : Int → Prop}
    (rests : ∀ first, ¬Goes stop step first → motive first)
    (goes : ∀ first, Goes stop step first → motive (first + step) → motive first)
    (first : Int) : motive first := by
  induction size : (range first stop step).length generalizing first with
  | zero =>
    by_cases isGoing : Goes stop step first
    · rw [range_of_goes isGoing, length_cons] at size
      omega
    · exact rests first isGoing
  | succ size ih =>
    by_cases isGoing : Goes stop step first
    · rw [range_of_goes isGoing, length_cons] at size
      exact goes first isGoing (ih (first + step) (by omega))
    · exact rests first isGoing

theorem range_eq_nil_iff (different : step ≠ 0) :
    range first stop step = [] ↔ ¬Goes stop step first := by
  constructor
  · intro isNil isGoing
    rw [range_of_goes isGoing] at isNil
    cases isNil
  · exact range_of_not_goes different

theorem range_congr {stop' : Int} (different : step ≠ 0)
    (same : stop = stop' ∨ ¬Goes stop step first ∧ ¬Goes stop' step first) :
    range first stop step = range first stop' step := by
  rcases same with rfl | ⟨rests, rests'⟩
  · rfl
  · rw [range_of_not_goes different rests, range_of_not_goes different rests']

theorem bounds_of_mem_range (different : step ≠ 0) {i : Int} (isMem : i ∈ range first stop step) :
    0 < step ∧ first ≤ i ∧ i < stop ∨ step < 0 ∧ stop < i ∧ i ≤ first := by
  induction first using range_induction stop step with
  | rests first rests =>
    rw [range_of_not_goes different rests] at isMem
    cases isMem
  | goes first isGoing ih =>
    rw [range_of_goes isGoing] at isMem
    unfold Goes at isGoing
    rcases mem_cons.mp isMem with rfl | isMem
    · omega
    · have bounds := ih isMem
      omega

/-! ## Loops -/

section Loops

variable {A : Type} (cond : Int → Bool) (element : Int → Option A) (fits : Int → Bool)

/-- `for (i = first; cond(i); i += step) push_back(element(i));`, with fuel; a
number that does not fit stops it without a result. -/
def loop (step : Int) : Nat → Int → Option (List A)
  | 0, _ => none
  | fuel + 1, i =>
    if cond i then do
      let x ← element i
      if fits (i + step) then
        let rest ← loop step fuel (i + step)
        pure (x :: rest)
      else
        none
    else
      some []

variable {cond element fits}

/-- The loop returns if what it steps to fits, and has the elements of a range. -/
theorem loop_iff (different : step ≠ 0) (f : Int → A)
    (agrees : ∀ n : Nat, cond (first + n * step) = true ↔ Goes stop step (first + n * step))
    (found : ∀ i ∈ range first stop step, element i = some (f i)) (result : List A) :
    (∃ fuel, loop cond element fits step fuel first = some result) ↔
      (∀ i ∈ range first stop step, fits (i + step) = true) ∧
        result = (range first stop step).map f := by
  induction first using range_induction stop step generalizing result with
  | rests first rests =>
    have stops : cond first = false := by
      have here := agrees 0
      simp only [cast_zero, Int.zero_mul, Int.add_zero] at here
      simpa using mt here.mp rests
    rw [range_of_not_goes different rests]
    constructor
    · rintro ⟨fuel, returns⟩
      cases fuel with
      | zero => cases returns
      | succ fuel =>
        rw [loop, stops] at returns
        cases returns
        exact ⟨fun i isMem => absurd isMem not_mem_nil, rfl⟩
    · rintro ⟨-, rfl⟩
      exact ⟨1, by rw [loop, stops]; rfl⟩
  | goes first isGoing ih =>
    have continues : cond first = true := by
      have here := agrees 0
      simp only [cast_zero, Int.zero_mul, Int.add_zero] at here
      exact here.mpr isGoing
    rw [range_of_goes isGoing] at found ⊢
    have here := found first mem_cons_self
    have rest := ih (fun n => by
        have next := agrees (n + 1)
        have place : first + ((n + 1 : Nat) : Int) * step = first + step + n * step := by
          push_cast
          ring
        rwa [place] at next)
      fun i isMem => found i (mem_cons_of_mem first isMem)
    rw [forall_mem_cons, map_cons]
    constructor
    · rintro ⟨fuel, returns⟩
      cases fuel with
      | zero => cases returns
      | succ fuel =>
        rw [loop, if_pos continues, here] at returns
        by_cases isFitting : fits (first + step) = true
        · simp only [Option.bind_eq_bind, Option.bind_some, if_pos isFitting] at returns
          cases taken : loop cond element fits step fuel (first + step) with
          | none =>
            rw [taken] at returns
            cases returns
          | some others =>
            rw [taken] at returns
            cases returns
            obtain ⟨allFit, rfl⟩ := (rest others).mp ⟨fuel, taken⟩
            exact ⟨⟨isFitting, allFit⟩, rfl⟩
        · simp only [Option.bind_eq_bind, Option.bind_some, if_neg isFitting] at returns
          cases returns
    · rintro ⟨⟨isFitting, allFit⟩, rfl⟩
      obtain ⟨fuel, returns⟩ := (rest _).mpr ⟨allFit, rfl⟩
      refine ⟨fuel + 1, ?_⟩
      rw [loop, if_pos continues, here]
      simp only [Option.bind_eq_bind, Option.bind_some, if_pos isFitting, returns]
      rfl

theorem loop_succ (fuel : Nat) (i : Int) :
    loop cond element fits step (fuel + 1) i =
      if cond i then
        (element i).bind fun x =>
          if fits (i + step) then
            (loop cond element fits step fuel (i + step)).bind fun rest => some (x :: rest)
          else none
      else some [] := by
  rw [loop]
  rfl

theorem loop_mono {fuel fuel' : Nat} (le : fuel ≤ fuel') {i : Int} {result : List A}
    (returns : loop cond element fits step fuel i = some result) :
    loop cond element fits step fuel' i = some result := by
  induction fuel generalizing fuel' i result with
  | zero => cases returns
  | succ fuel ih =>
    cases fuel' with
    | zero => exact absurd le (not_succ_le_zero fuel)
    | succ fuel' =>
      rw [loop_succ] at returns ⊢
      split at returns
      · rename_i goes
        rw [if_pos goes]
        obtain ⟨x, isElement, returns⟩ := Option.bind_eq_some_iff.mp returns
        rw [isElement, Option.bind_some]
        split at returns
        · rename_i isFitting
          rw [if_pos isFitting]
          obtain ⟨rest, isRest, ⟨⟩⟩ := Option.bind_eq_some_iff.mp returns
          rw [ih (le_of_succ_le_succ le) isRest]
          rfl
        · cases returns
      · rename_i rests
        rw [if_neg rests]
        exact returns

/-- A loop that comes closer to its end with each round needs no more fuel than rounds. -/
theorem loop_stable (rounds : Int → Nat)
    (closer : ∀ i, cond i = true → rounds (i + step) < rounds i) {fuel fuel' : Nat} {i : Int}
    (enough : rounds i < fuel) (enough' : rounds i < fuel') :
    loop cond element fits step fuel i = loop cond element fits step fuel' i := by
  induction fuel generalizing fuel' i with
  | zero => cases enough
  | succ fuel ih =>
    cases fuel' with
    | zero => cases enough'
    | succ fuel' =>
      rw [loop_succ, loop_succ]
      by_cases goes : cond i = true
      · have less := closer i goes
        rw [@ih fuel' (i + step) (by omega) (by omega)]
      · rw [if_neg goes, if_neg goes]

end Loops

end Mnn.Foundation.IntRanges
