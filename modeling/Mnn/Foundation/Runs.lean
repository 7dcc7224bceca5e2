import Mathlib

/-!
# Runs of partial step functions

A component is a step function which may refuse an event in a state.  A run
takes a list of events one after the other and ends at the first refusal.
The induction which carries an invariant from the first state of a run to
every later one is stated here once.
-/

namespace Mnn.Foundation.Runs

open List

universe u v

variable {State : Type u} {Event : Type v}

/-- Take every event of the list in turn. -/
def run (step : State → Event → Option State) : State → List Event → Option State
  | state, [] => some state
  | state, event :: rest =>
    match step state event with
    | none => none
    | some next => run step next rest

theorem run_cons_eq_some {step : State → Event → Option State}
    {first last : State} {event : Event} {rest : List Event} :
    run step first (event :: rest) = some last ↔ ∃ next, step first event = some next ∧
        run step next rest = some last := by
  simp only [run]
  cases step first event with
  | none => simp
  | some next => simp

/-- A property which every accepted event preserves holds at the end of a run. -/
theorem run_invariant {step : State → Event → Option State} {invariant : State → Prop} (preserved :
      ∀ state event next, invariant state → step state event = some next → invariant next)
    {first last : State} {events : List Event} (initially : invariant first)
    (ran : run step first events = some last) :
    invariant last := by
  induction events generalizing first with
  | nil =>
    cases ran
    exact initially
  | cons event rest ih =>
    rcases run_cons_eq_some.mp ran with ⟨next, taken, remaining⟩
    exact ih (preserved first event next initially taken) remaining

/--
States reached from `first` by accepted events, each of which satisfies
`allowed` in the state in which it is taken.
-/
inductive Reaches
    (step : State → Event → Option State)
    (allowed : State → Event → Prop)
    (first : State) : State → Prop where
  | start : Reaches step allowed first first
  | step {middle last : State} {event : Event} (earlier : Reaches step allowed first middle)
      (permitted : allowed middle event)
      (taken : step middle event = some last) :
      Reaches step allowed first last

/-- A property which every allowed event preserves holds in every state reached. -/
theorem Reaches.invariant {step : State → Event → Option State} {allowed : State → Event → Prop}
    {invariant : State → Prop}
    (preserved :
      ∀ state event next, invariant state → allowed state event →
          step state event = some next → invariant next) {first last : State}
    (initially : invariant first) (reached : Reaches step allowed first last) :
    invariant last := by
  induction reached with
  | start => exact initially
  | step earlier permitted taken holds =>
    exact preserved _ _ _ holds permitted taken

/-- A step which refuses what is not allowed. -/
def guarded (step : State → Event → Option State) (allowed : State → Event → Prop)
    [∀ state event, Decidable (allowed state event)]
    (state : State) (event : Event) : Option State :=
  if allowed state event then step state event else none

theorem Reaches.of_run {step : State → Event → Option State} {allowed : State → Event → Prop}
    [∀ state event, Decidable (allowed state event)] {first last : State} {events : List Event}
    (ran : run (guarded step allowed) first events = some last) :
    Reaches step allowed first last := by
  have preserved :
      ∀ state event next,
        Reaches step allowed first state → guarded step allowed state event = some next →
          Reaches step allowed first next := by
    intro state event next earlier taken
    rw [guarded] at taken
    split at taken
    · next permitted => exact earlier.step permitted taken
    · nomatch taken
  exact run_invariant preserved Reaches.start ran

/-! ## Runs of total steps -/

variable {property : State → Prop}

variable {allowed : State → Event → Prop}

section Total

variable {step : State → Event → State} {first : State} {events : List Event}

/-- What holds of the state after every part of the run from the start. -/
def Always (step : State → Event → State) (property : State → Prop)
    (first : State) (events : List Event) : Prop :=
  ∀ earlier, earlier <+: events → property (earlier.foldl step first)

/-- Every event is allowed in the state in which it comes. -/
def EachAllowed (step : State → Event → State) (allowed : State → Event → Prop)
    (first : State) (events : List Event) : Prop :=
  ∀ earlier event, earlier ++ [event] <+: events → allowed (earlier.foldl step first) event

theorem always_nil : Always step property first [] ↔ property first := by
  constructor
  · intro always
    exact always [] ( nil_prefix ..)
  · intro holds earlier isPrefix
    rw [prefix_nil.mp isPrefix]
    exact holds

theorem always_cons {event : Event} :
    Always step property first (event :: events) ↔
      property first ∧ Always step property (step first event) events := by
  constructor
  · intro always
    constructor
    · exact always [] ( nil_prefix ..)
    · intro earlier isPrefix
      exact always (event :: earlier) (cons_prefix_cons.mpr ⟨rfl, isPrefix⟩)
  · rintro ⟨holds, later⟩ earlier isPrefix
    cases earlier with
    | nil => exact holds
    | cons head rest =>
      rcases cons_prefix_cons.mp isPrefix with ⟨rfl, restPrefix⟩
      exact later rest restPrefix

theorem eachAllowed_nil : EachAllowed step allowed first [] := by
  intro earlier event isPrefix
  have noEvent := prefix_nil.mp isPrefix
  exact absurd noEvent (append_ne_nil_of_right_ne_nil _ (cons_ne_nil _ _))

theorem eachAllowed_cons {event : Event} :
    EachAllowed step allowed first (event :: events) ↔ allowed first event ∧
        EachAllowed step allowed (step first event) events := by
  constructor
  · intro each
    constructor
    · exact each [] event (cons_prefix_cons.mpr ⟨rfl, nil_prefix ..⟩)
    · intro earlier other isPrefix
      exact each (event :: earlier) other (cons_prefix_cons.mpr ⟨rfl, isPrefix⟩)
  · rintro ⟨now, later⟩ earlier other isPrefix
    cases earlier with
    | nil =>
      rcases cons_prefix_cons.mp isPrefix with ⟨rfl, -⟩
      exact now
    | cons head rest =>
      rcases cons_prefix_cons.mp isPrefix with ⟨rfl, restPrefix⟩
      exact later rest other restPrefix

/--
When a valid step keeps a property exactly if it is allowed, the property holds
all along a run of valid steps exactly if every step of it is allowed.
-/
theorem always_iff_eachAllowed_of_valid {valid allowed : State → Event → Prop}
    (keeps :
      ∀ state event, property state → valid state event →
        (property (step state event) ↔ allowed state event)) (initially : property first)
    (eachValid : EachAllowed step valid first events) :
    Always step property first events ↔ EachAllowed step allowed first events := by
  induction events generalizing first with
  | nil =>
    rw [always_nil]
    exact ⟨fun _ => eachAllowed_nil, fun _ => initially⟩
  | cons event rest ih =>
    rcases eachAllowed_cons.mp eachValid with ⟨valid, restValid⟩
    rw [always_cons, eachAllowed_cons]
    constructor
    · rintro ⟨-, later⟩
      have next := later [] ( nil_prefix ..)
      exact ⟨(keeps first event initially valid).mp next, (ih next restValid).mp later⟩
    · rintro ⟨now, later⟩
      have next := (keeps first event initially valid).mpr now
      exact ⟨initially, (ih next restValid).mpr later⟩

theorem always_iff_eachAllowed (keeps :
      ∀ state event, property state → (property (step state event) ↔ allowed state event))
    (initially : property first) :
    Always step property first events ↔ EachAllowed step allowed first events :=
  always_iff_eachAllowed_of_valid
    (fun state event holds (_ : True) => keeps state event holds) initially
    fun _ _ _ => trivial

/--
Two conditions on the steps that come to the same where a property holds, which
the first of them keeps, come to the same all along a run.
-/
theorem eachAllowed_congr {allowed allowed' : State → Event → Prop}
    (same : ∀ state event, property state → (allowed state event ↔ allowed' state event))
    (keeps : ∀ state event, property state → allowed state event → property (step state event))
    (initially : property first) :
    EachAllowed step allowed first events ↔ EachAllowed step allowed' first events := by
  induction events generalizing first with
  | nil => exact ⟨fun _ => eachAllowed_nil, fun _ => eachAllowed_nil⟩
  | cons event rest ih =>
    rw [eachAllowed_cons, eachAllowed_cons]
    constructor
    · rintro ⟨now, later⟩
      have next := keeps first event initially now
      exact ⟨(same first event initially).mp now, (ih next).mp later⟩
    · rintro ⟨now, later⟩
      have now := (same first event initially).mpr now
      have next := keeps first event initially now
      exact ⟨now, (ih next).mpr later⟩

end Total

end Mnn.Foundation.Runs
