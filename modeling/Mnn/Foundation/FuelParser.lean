import Mathlib

/-!
# Parsers with fuel

A parser goes over tokens with a cursor.  Its loops and its recursion use up
fuel, so that a parser that never comes to an end is one that runs out of every
fuel.  A parser can also be blocked, which is how a run is watched for a place
where it would go on without taking a token.
-/

namespace Mnn.Foundation.FuelParser

variable {Token α β : Type}

/-- What a parser comes to; what is parsed ends in front of the cursor. -/
inductive Outcome (α : Type)
  | outOfFuel
  | blocked
  | done (value : α) (cursor : Nat)
  deriving DecidableEq

def Outcome.andThen (outcome : Outcome α) (next : α → Nat → Outcome β) : Outcome β :=
  match outcome with
  | .outOfFuel => .outOfFuel
  | .blocked => .blocked
  | .done value cursor => next value cursor

/-- A parser is given the tokens and the cursor. -/
def Parser (Token α : Type) := List Token → Nat → Outcome α

namespace Parser

def outOfFuel : Parser Token α := fun _ _ => .outOfFuel

def blocked : Parser Token α := fun _ _ => .blocked

instance : Monad (Parser Token) where
  pure value := fun _ cursor => .done value cursor
  bind parser next := fun tokens cursor =>
    (parser tokens cursor).andThen fun value cursor => next value tokens cursor

@[simp]
theorem pure_apply (value : α) (tokens : List Token) (cursor : Nat) :
    (pure value : Parser Token α) tokens cursor = .done value cursor :=
  rfl

@[simp]
theorem bind_apply (parser : Parser Token α) (next : α → Parser Token β)
    (tokens : List Token) (cursor : Nat) :
    (parser >>= next) tokens cursor = (parser tokens cursor).andThen fun value cursor =>
        next value tokens cursor :=
  rfl

@[simp]
theorem ite_apply (condition : Prop) [Decidable condition] (yes no : Parser Token α)
    (tokens : List Token) (cursor : Nat) :
    (if condition then yes else no) tokens cursor =
      if condition then yes tokens cursor else no tokens cursor := by
  split
  · rfl
  · rfl

instance : LawfulMonad (Parser Token) :=
  LawfulMonad.mk' _
    (fun parser => funext fun tokens => funext fun cursor => by
      show (parser tokens cursor).andThen _ = parser tokens cursor
      cases parser tokens cursor with
      | _ => rfl)
    (fun _ _ => rfl)
    (fun parser next last => funext fun tokens => funext fun cursor => by
      simp only [bind_apply]
      cases parser tokens cursor with
      | _ => rfl)

end Parser

/-! ## Coming to an end -/

/-- There was enough fuel, and what is done is as told. -/
def Ends (outcome : Outcome α) (told : α → Nat → Prop) : Prop :=
  match outcome with
  | .outOfFuel => False
  | .blocked => True
  | .done value cursor => told value cursor

variable {next : α → Nat → Outcome β} {outcome : Outcome α}

theorem Ends.andThen {told : α → Nat → Prop} {told' : β → Nat → Prop} (ends : Ends outcome told)
    (goesOn : ∀ value cursor, told value cursor → Ends (next value cursor) told') :
    Ends (outcome.andThen next) told' := by
  cases outcome with
  | outOfFuel => exact ends
  | blocked => exact ends
  | done value cursor => exact goesOn value cursor ends

variable {outcome : Outcome α}

theorem Ends.imp {told told' : α → Nat → Prop} (ends : Ends outcome told)
    (implies : ∀ value cursor, told value cursor → told' value cursor) :
    Ends outcome told' := by
  cases outcome with
  | outOfFuel => exact ends
  | blocked => exact ends
  | done value cursor => exact implies value cursor ends

theorem Ends.forward {place : Nat} (ends : Ends outcome fun _ cursor => place ≤ cursor)
    (goesOn : ∀ value cursor, place ≤ cursor →
      Ends (next value cursor) fun _ cursor' => cursor ≤ cursor') :
    Ends (outcome.andThen next) fun _ cursor => place ≤ cursor :=
  ends.andThen fun value cursor forward =>
    (goesOn value cursor forward).imp fun _ _ further =>
      Nat.le_trans forward further

theorem Ends.of_le {place place' : Nat}
    (ends : Ends outcome fun _ cursor => place ≤ cursor) (le : place' ≤ place) :
    Ends outcome fun _ cursor => place' ≤ cursor :=
  ends.imp fun _ _ forward => Nat.le_trans le forward

/-- From this place on the parser comes to an end, and does not go back. -/
def Parser.Forward (tokens : List Token) (start : Nat) (parser : Parser Token α) : Prop :=
  ∀ cursor ≥ start, Ends (parser tokens cursor) fun _ cursor' => cursor ≤ cursor'

namespace Parser.Forward

variable {tokens : List Token} {start : Nat} {parser : Parser Token α}

theorem mono {start' : Nat} (forward : Forward tokens start parser) (le : start ≤ start') :
    Forward tokens start' parser :=
  fun cursor behind => forward cursor (Nat.le_trans le behind)

theorem pure (value : α) : Forward tokens start (Pure.pure value) :=
  fun cursor _ => Nat.le_refl cursor

theorem bind {next : α → Parser Token β} (forward : Forward tokens start parser)
    (goesOn : ∀ value, Forward tokens start (next value)) :
    Forward tokens start (parser >>= next) :=
  fun cursor behind => (forward cursor behind).forward fun value cursor' further =>
    goesOn value cursor' (Nat.le_trans behind further)

theorem ite {condition : Prop} [Decidable condition] {yes no : Parser Token α}
    (forwardYes : Forward tokens start yes) (forwardNo : Forward tokens start no) :
    Forward tokens start (if condition then yes else no) := by
  split
  · exact forwardYes
  · exact forwardNo

end Parser.Forward

/-- With enough fuel the outcome is done with the cursor at this place. -/
def Stays (outcome : Outcome α) (place : Nat) : Prop :=
  match outcome with
  | .outOfFuel => True
  | .blocked => False
  | .done _ cursor => cursor = place

theorem Stays.andThen {place : Nat} (stays : Stays outcome place)
    (goesOn : ∀ value, Stays (next value place) place) :
    Stays (outcome.andThen next) place := by
  cases outcome with
  | outOfFuel => exact stays
  | blocked => exact stays
  | done value cursor =>
    obtain rfl : cursor = place := stays
    exact goesOn value

theorem Stays.outOfFuel_of_andThen {place : Nat} (stays : Stays outcome place)
    (never : ∀ value, next value place = .outOfFuel) :
    outcome.andThen next = .outOfFuel := by
  cases outcome with
  | outOfFuel => rfl
  | blocked => exact stays.elim
  | done value cursor =>
    obtain rfl : cursor = place := stays
    exact never value

/-! ## Watched runs -/

/-- Two loops of the same body, the second one with no less fuel. -/
@[elab_as_elim]
theorem fuel_induction {motive : (fuel fuel' : Nat) → fuel ≤ fuel' → Prop}
    (zero : ∀ fuel', motive 0 fuel' (Nat.zero_le fuel'))
    (succ : ∀ fuel fuel' (le : fuel ≤ fuel'), motive fuel fuel' le →
      motive (fuel + 1) (fuel' + 1) (Nat.succ_le_succ le))
    {fuel fuel' : Nat} (le : fuel ≤ fuel') : motive fuel fuel' le := by
  induction fuel generalizing fuel' with
  | zero => exact zero fuel'
  | succ fuel ih =>
    cases fuel' with
    | zero => exact absurd le (Nat.not_succ_le_zero fuel)
    | succ fuel' =>
      have le := Nat.le_of_succ_le_succ le
      exact succ fuel fuel' le (ih le)

/--
The watched outcome agrees with that of a run with more fuel: it is the same as
soon as there is enough fuel, except that where the watched run is blocked, the
other one may run out of its fuel.
-/
def Agrees (watched outcome : Outcome α) : Prop :=
  watched = .outOfFuel ∨ watched = outcome ∨ watched = .blocked ∧ outcome = .outOfFuel

theorem Agrees.refl (outcome : Outcome α) : Agrees outcome outcome := Or.inr (Or.inl rfl)

theorem Agrees.andThen {watched : Outcome α} {next' : α → Nat → Outcome β}
    (agrees : Agrees watched outcome)
    (goesOn : ∀ value cursor, Agrees (next value cursor) (next' value cursor)) :
    Agrees (watched.andThen next) (outcome.andThen next') := by
  rcases agrees with rfl | rfl | ⟨rfl, rfl⟩
  · exact Or.inl rfl
  · cases watched with
    | outOfFuel => exact Or.inl rfl
    | blocked => exact Agrees.refl _
    | done value cursor => exact goesOn value cursor
  · exact Or.inr (Or.inr ⟨rfl, rfl⟩)

/-- A place where only a watched run is blocked, and no other one ends. -/
theorem Agrees.blocked {watched watched' blocks : Prop} [Decidable (watched ∧ blocks)]
    [Decidable (watched' ∧ blocks)] {goesOn goesOn' : Outcome α} (watches : watched' → watched)
    (never : blocks → ¬watched' → goesOn' = .outOfFuel) (agrees : Agrees goesOn goesOn') :
    Agrees (if watched ∧ blocks then .blocked else goesOn)
      (if watched' ∧ blocks then .blocked else goesOn') := by
  by_cases blocked' : watched' ∧ blocks
  · rw [if_pos blocked', if_pos ⟨watches blocked'.1, blocked'.2⟩]
    exact Agrees.refl _
  · rw [if_neg blocked']
    by_cases blocked : watched ∧ blocks
    · rw [if_pos blocked]
      right
      right
      constructor
      · rfl
      · exact never blocked.2 fun watched' => blocked' ⟨watched', blocked.2⟩
    · rw [if_neg blocked]
      exact agrees

/-- Parsers agree on all tokens and at all places. -/
def Parser.Agrees (watched parser : Parser Token α) : Prop :=
  ∀ tokens cursor, FuelParser.Agrees (watched tokens cursor) (parser tokens cursor)

namespace Parser.Agrees

theorem refl (parser : Parser Token α) : Parser.Agrees parser parser :=
  fun _ _ => FuelParser.Agrees.refl _

theorem outOfFuel (parser : Parser Token α) : Parser.Agrees Parser.outOfFuel parser :=
  fun _ _ => Or.inl rfl

variable {next next' : α → Parser Token β}

theorem bind {watched parser : Parser Token α} (agrees : Parser.Agrees watched parser)
    (goesOn : ∀ value, Parser.Agrees (next value) (next' value)) :
    Parser.Agrees (watched >>= next) (parser >>= next') :=
  fun tokens cursor =>
    (agrees tokens cursor).andThen fun value cursor =>
      goesOn value tokens cursor

theorem behind (parser : Parser Token α)
    (goesOn : ∀ value, Parser.Agrees (next value) (next' value)) :
    Parser.Agrees (parser >>= next) (parser >>= next') :=
  bind (refl parser) goesOn

theorem ite {condition : Prop} [Decidable condition]
    {yes no yes' no' : Parser Token α} (agreesYes : Parser.Agrees yes yes')
    (agreesNo : Parser.Agrees no no') :
    Parser.Agrees (if condition then yes else no) (if condition then yes' else no') := by
  split
  · exact agreesYes
  · exact agreesNo

end Parser.Agrees

end Mnn.Foundation.FuelParser
