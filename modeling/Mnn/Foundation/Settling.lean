import Mathlib

/-!
# Runs with fuel that settle

A run is given fuel for its loops and comes to a value, is stopped, or goes on until
the fuel is used up.  It settles on an outcome if it comes to this one with enough
fuel, and goes on with any less.  Settling is compatible with running one thing after
the other, so that a program settles if its loops do.
-/

namespace Mnn.Foundation.Settling

variable {α β : Type}

/-! ## Outcomes and runs -/

inductive Outcome (α : Type)
  | value (result : α)
  | stopped
  | endless
  deriving DecidableEq

instance : Monad Outcome where
  pure := .value
  bind outcome next :=
    match outcome with
    | .value result => next result
    | .stopped => .stopped
    | .endless => .endless

/-- What a program comes to with this much fuel. -/
def Run (α : Type) : Type := Nat → Outcome α

instance : Monad Run where
  pure result := fun _ => .value result
  bind run next := fun fuel => run fuel >>= fun result => next result fuel

/-! ## Settling -/

structure Settles (run : Run α) (outcome : Outcome α) : Prop where
  eventually : ∃ enough, ∀ fuel ≥ enough, run fuel = outcome
  always : ∀ fuel, run fuel = .endless ∨ run fuel = outcome

theorem settles_const (outcome : Outcome α) : Settles (fun _ => outcome) outcome where
  eventually := ⟨0, fun _ _ => rfl⟩
  always _ := .inr rfl

theorem settles_pure (result : α) : Settles (pure result) (pure result) :=
  settles_const (.value result)

theorem Settles.bind {run : Run α} {outcome : Outcome α} {next : α → Run β}
    {next' : α → Outcome β} (settles : Settles run outcome)
    (settlesNext : ∀ result, Settles (next result) (next' result)) :
    Settles (run >>= next) (outcome >>= next') := by
  obtain ⟨enough, agrees⟩ := settles.eventually
  constructor
  · cases isOutcome : outcome with
    | value result =>
      obtain ⟨enough', agrees'⟩ := (settlesNext result).eventually
      refine ⟨max enough enough', fun fuel isEnough => ?_⟩
      have first := agrees fuel (Nat.le_trans (Nat.le_max_left ..) isEnough)
      rw [isOutcome] at first
      show (run fuel >>= fun result => next result fuel) = _
      rw [first]
      exact agrees' fuel (Nat.le_trans (Nat.le_max_right ..) isEnough)
    | stopped =>
      refine ⟨enough, fun fuel isEnough => ?_⟩
      show (run fuel >>= fun result => next result fuel) = _
      rw [agrees fuel isEnough, isOutcome]
      rfl
    | endless =>
      refine ⟨enough, fun fuel isEnough => ?_⟩
      show (run fuel >>= fun result => next result fuel) = _
      rw [agrees fuel isEnough, isOutcome]
      rfl
  · intro fuel
    show (run fuel >>= fun result => next result fuel) = _ ∨
      (run fuel >>= fun result => next result fuel) = _
    rcases settles.always fuel with goesOn | same
    · rw [goesOn]
      exact .inl rfl
    · rw [same]
      cases outcome with
      | value result => exact (settlesNext result).always fuel
      | stopped => exact .inr rfl
      | endless => exact .inl rfl

theorem Settles.ite {condition : Prop} [Decidable condition] {yes no : Run α}
    {yes' no' : Outcome α} (settlesYes : Settles yes yes') (settlesNo : Settles no no') :
    Settles (if condition then yes else no) (if condition then yes' else no') := by
  split
  · exact settlesYes
  · exact settlesNo

/-- A run that more fuel does not change settles when it comes to an end once. -/
theorem settles_of_mono {run : Run α} {enough : Nat}
    (mono : ∀ fuel fuel', fuel ≤ fuel' → run fuel = .endless ∨ run fuel = run fuel')
    (finishes : run enough ≠ .endless) : Settles run (run enough) where
  eventually :=
    ⟨enough, fun fuel isEnough => ((mono enough fuel isEnough).resolve_left finishes).symm⟩
  always fuel := by
    rcases Nat.le_total fuel enough with less | more
    · exact mono fuel enough less
    · exact .inr ((mono enough fuel more).resolve_left finishes).symm

/-- A run comes to an end if and only if what it settles on is one. -/
theorem Settles.finishes_iff {run : Run α} {outcome : Outcome α} (settles : Settles run outcome) :
    (∃ fuel, run fuel ≠ .endless) ↔ outcome ≠ .endless := by
  constructor
  · rintro ⟨fuel, finishes⟩
    rcases settles.always fuel with goesOn | same
    · exact absurd goesOn finishes
    · rwa [← same]
  · intro finishes
    obtain ⟨enough, agrees⟩ := settles.eventually
    exact ⟨enough, by rwa [agrees enough (Nat.le_refl enough)]⟩

/-! ## Lists -/

section Lists

variable {m : Type → Type} [Monad m]

/-- One after the other. -/
def sequence : List (m α) → m (List α)
  | [] => pure []
  | first :: rest => do
      let here ← first
      let later ← sequence rest
      pure (here :: later)

/-- What the condition holds for, which is asked of one after the other. -/
def filtering (condition : α → m Bool) : List α → m (List α)
  | [] => pure []
  | first :: rest => do
      let accepted ← condition first
      let later ← filtering condition rest
      pure (if accepted then first :: later else later)

theorem settles_sequence {runs : List (Run α)} {outcomes : List (Outcome α)}
    (settle : List.Forall₂ Settles runs outcomes) :
    Settles (sequence runs) (sequence outcomes) := by
  induction settle with
  | nil => exact settles_pure []
  | cons here later ih =>
    exact here.bind fun _ => ih.bind fun _ => settles_pure _

theorem settles_filtering {condition : α → Run Bool} {condition' : α → Outcome Bool}
    (settles : ∀ x, Settles (condition x) (condition' x)) (xs : List α) :
    Settles (filtering condition xs) (filtering condition' xs) := by
  induction xs with
  | nil => exact settles_pure []
  | cons x xs ih =>
    exact (settles x).bind fun _ => ih.bind fun _ => settles_pure _

end Lists

end Mnn.Foundation.Settling
