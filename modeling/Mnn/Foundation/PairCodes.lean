import Mathlib

/-!
# Codes of single symbols and pairs

A symbol is written as itself or as a pair of symbols.  Two pairs never share a
symbol, so that reading them from the left finds them all.
-/

namespace Mnn.Foundation.PairCodes

open List
open Nat

variable {α : Type} (pair : α → α → Option α)

/-- Each pair becomes the symbol it stands for. -/
def decodePairs : List α → List α
  | [] => []
  | [first] => [first]
  | first :: second :: rest =>
    match pair first second with
    | some value => value :: decodePairs rest
    | none => first :: decodePairs (second :: rest)

/-- The second symbol of a pair is not the first one of another. -/
def Separated : Prop :=
  ∀ first second third value, pair first second = some value → pair second third = none

/-- A symbol with which no pair begins. -/
def Single (first : α) : Prop := ∀ second, pair first second = none

variable {pair} {first second value : α}

theorem decodePairs_of_pair (rest : List α) (isPair : pair first second = some value) :
    decodePairs pair (first :: second :: rest) = value :: decodePairs pair rest := by
  rw [decodePairs, isPair]

theorem decodePairs_of_none (rest : List α) (notPair : pair first second = none) :
    decodePairs pair (first :: second :: rest) =
      first :: decodePairs pair (second :: rest) := by
  rw [decodePairs, notPair]

theorem Single.decodePairs_cons (single : Single pair first) (rest : List α) :
    decodePairs pair (first :: rest) = first :: decodePairs pair rest := by
  cases rest with
  | nil => rfl
  | cons second rest => exact decodePairs_of_none rest (single second)

/-- The second symbol of a pair stands for itself where the pair is cut. -/
theorem decodePairs_of_second (separated : Separated pair) (isPair : pair first second = some value)
    (rest : List α) :
    decodePairs pair (second :: rest) = second :: decodePairs pair rest :=
  Single.decodePairs_cons (fun third => separated first second third value isPair) rest

theorem length_decodePairs_cons_le (separated : Separated pair) (first : α) (rest : List α) :
    (decodePairs pair (first :: rest)).length ≤ (decodePairs pair rest).length + 1 := by
  cases rest with
  | nil => exact Nat.le_refl 1
  | cons second rest =>
    cases isPair : pair first second with
    | none =>
      exact Nat.le_of_eq (congrArg List.length (decodePairs_of_none rest isPair))
    | some value =>
      rw [decodePairs_of_pair rest isPair, decodePairs_of_second separated isPair, length_cons,
        length_cons]
      exact le_succ _

theorem length_le_length_decodePairs_cons (separated : Separated pair) (first : α) (rest : List α) :
    (decodePairs pair rest).length ≤ (decodePairs pair (first :: rest)).length := by
  cases rest with
  | nil => exact zero_le _
  | cons second rest =>
    cases isPair : pair first second with
    | none =>
      rw [decodePairs_of_none rest isPair, length_cons]
      exact le_succ _
    | some value =>
      refine Nat.le_of_eq ?_
      rw [decodePairs_of_pair rest isPair, decodePairs_of_second separated isPair, length_cons,
        length_cons]

theorem length_lt_length_decodePairs_cons_cons (separated : Separated pair)
    (first second : α) (rest : List α) :
    (decodePairs pair rest).length < (decodePairs pair (first :: second :: rest)).length := by
  cases isPair : pair first second with
  | none =>
    rw [decodePairs_of_none rest isPair, length_cons]
    exact lt_succ_of_le (length_le_length_decodePairs_cons separated second rest)
  | some value =>
    rw [decodePairs_of_pair rest isPair, length_cons]
    exact lt_succ_self _

/-! ## Shrinking -/

variable (pair)

/-- What is written stands for less, whatever symbol is in front of it. -/
def Shrinks (symbols symbols' : List α) : Prop :=
  (decodePairs pair symbols').length < (decodePairs pair symbols).length ∧
    ∀ front, (decodePairs pair (front :: symbols')).length <
      (decodePairs pair (front :: symbols)).length

variable {pair} {symbols symbols' : List α}

theorem Shrinks.of_length (separated : Separated pair)
    (less : (decodePairs pair symbols').length + 2 ≤ (decodePairs pair symbols).length) :
    Shrinks pair symbols symbols' := by
  constructor
  · exact lt_of_succ_lt less
  · intro front
    calc
      (decodePairs pair (front :: symbols')).length ≤ (decodePairs pair symbols').length + 1 :=
        length_decodePairs_cons_le separated front symbols'
      _ < (decodePairs pair symbols).length := less
      _ ≤ (decodePairs pair (front :: symbols)).length :=
        length_le_length_decodePairs_cons separated front symbols

theorem Shrinks.cons (shrinks : Shrinks pair symbols symbols') (first : α) :
    Shrinks pair (first :: symbols) (first :: symbols') := by
  refine ⟨shrinks.2 first, fun front => ?_⟩
  cases isPair : pair front first with
  | none =>
    rw [decodePairs_of_none _ isPair, decodePairs_of_none _ isPair,
      length_cons, length_cons]
    exact succ_lt_succ (shrinks.2 first)
  | some value =>
    rw [decodePairs_of_pair _ isPair, decodePairs_of_pair _ isPair,
      length_cons, length_cons]
    exact succ_lt_succ shrinks.1

end Mnn.Foundation.PairCodes
