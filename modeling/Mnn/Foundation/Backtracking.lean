import Mathlib

/-!
# Backtracking

A matcher that can go back is told by the places at which its ways end, the way that is
tried first in front.  A step is repeated as often as it can be; behind the least number
of repetitions, one that stays in place counts for none.
-/

namespace Mnn.Foundation.Backtracking

section Repetition

variable (step : Nat → List Nat)

/-- At most so many repetitions more, each of which goes forward. -/
def further : Nat → Nat → List Nat
  | 0, place => [place]
  | more + 1, place =>
    ((step place).filter (place < ·)).flatMap (further more) ++ [place]

/-- So many repetitions, and what comes after them. -/
def mandatory (after : Nat → List Nat) : Nat → Nat → List Nat
  | 0, place => after place
  | count + 1, place => (step place).flatMap (mandatory after count)

/-- Repetitions between two numbers, or without limit, up to the size of the text. -/
def greedy (size qmin : Nat) (qmax : Option Nat) (place : Nat) : List Nat :=
  match qmax with
  | none => mandatory step (fun place => further step (size - place) place) qmin place
  | some qmax =>
    if qmin ≤ qmax then mandatory step (further step (qmax - qmin)) qmin place else []

variable {step}

end Repetition

section First

variable {α β : Type}

/-- What is tried, up to the first that it can be gone on from. -/
def tried (goesOn : α → Bool) : List α → List α
  | [] => []
  | x :: xs => if goesOn x then [x] else x :: tried goesOn xs

theorem findSome?_eq_bind {result : α → Option β} (xs : List α) :
    xs.findSome? result = (xs.find? fun x => (result x).isSome).bind result := by
  induction xs with
  | nil => rfl
  | cons x xs ih =>
    rw [List.findSome?_cons, List.find?_cons]
    cases isResult : result x with
    | some y =>
      show some y = (some x).bind result
      rw [Option.bind_some, isResult]
    | none => exact ih

theorem findSome?_congr_tried {result result' : α → Option β} {xs : List α}
    (same : ∀ x ∈ tried (fun x => (result' x).isSome) xs, result x = result' x) :
    xs.findSome? result = xs.findSome? result' := by
  induction xs with
  | nil => rfl
  | cons x xs ih =>
    rw [tried] at same
    rw [List.findSome?_cons, List.findSome?_cons]
    cases isResult : result' x with
    | some y =>
      rw [isResult] at same
      have here := same x List.mem_cons_self
      rw [here, isResult]
    | none =>
      rw [isResult] at same
      have here := same x List.mem_cons_self
      rw [here, isResult]
      exact ih fun y isTried => same y (List.mem_cons_of_mem x isTried)

end First

end Mnn.Foundation.Backtracking
