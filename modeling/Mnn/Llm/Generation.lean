import Mathlib

/-!
# Generation

A target model continues a text by one token after the other.  What it samples
depends on the text only, so that the tokens behind a text make up a stream.
Sampling and forwards are taken to succeed, and nobody cancels.
-/

namespace Mnn.Llm

open List

/-- The model, its sampler and its stop tokens. -/
structure Target where
  /-- What is sampled behind a text. -/
  sample : List Int → Nat
  is_stop : Int → Bool

namespace Target

variable (target : Target)

/-- `ArGeneration::generate`, behind a text and with so many tokens to come. -/
def arGenerate (target : Target) : List Int → Nat → List Int
  | _, 0 => []
  | context, budget + 1 =>
    let current_token : Int := target.sample context
    current_token ::
      if target.is_stop current_token then
        []
      else
        arGenerate target (context ++ [current_token]) budget

/-! ## The stream of tokens -/

/-- The first tokens behind a text. -/
def tokens (context : List Int) : Nat → List Int
  | 0 => []
  | count + 1 =>
    tokens context count ++ [(target.sample (context ++ tokens context count) : Int)]

/-- A token behind a text. -/
def token (context : List Int) (i : Nat) : Int := target.sample (context ++ target.tokens context i)

/-- None of the first tokens is a stop token. -/
def NoStop (context : List Int) (count : Nat) : Prop :=
  ∀ i < count, target.is_stop (target.token context i) = false

variable {target} in
/-- The tokens in front of a stop token are not more than those without one. -/
theorem NoStop.le {context : List Int} {count last : Nat} (noStop : target.NoStop context count)
    (isStop : target.is_stop (target.token context last) = true) : count ≤ last := by
  by_contra more
  rw [noStop last (Nat.lt_of_not_le more)] at isStop
  nomatch isStop

section

variable (context : List Int)

theorem tokens_succ (count : Nat) :
    target.tokens context (count + 1) =
      target.tokens context count ++ [target.token context count] :=
  rfl

@[simp]
theorem length_tokens (count : Nat) :
    (target.tokens context count).length = count := by
  induction count with
  | zero => rfl
  | succ count ih =>
    rw [tokens_succ, length_append, ih, length_singleton]

theorem tokens_add (count more : Nat) :
    target.tokens context (count + more) = target.tokens context count ++
        target.tokens (context ++ target.tokens context count) more := by
  induction more with
  | zero => exact (append_nil _).symm
  | succ more ih =>
    rw [← Nat.add_assoc, tokens_succ, tokens_succ, ih,
      append_assoc, token, token, ih, append_assoc]

theorem token_add (count i : Nat) :
    target.token context (count + i) = target.token (context ++ target.tokens context count) i := by
  rw [token, token, tokens_add, append_assoc]

theorem tokens_one : target.tokens context 1 = [target.token context 0] :=
  rfl

theorem tokens_cons (count : Nat) :
    target.tokens context (count + 1) = target.token context 0 ::
        target.tokens (context ++ [target.token context 0]) count := by
  rw [Nat.add_comm, tokens_add, tokens_one]
  rfl

theorem token_succ (i : Nat) :
    target.token context (i + 1) = target.token (context ++ [target.token context 0]) i := by
  rw [Nat.add_comm, token_add, tokens_one]

theorem tokens_eq_arGenerate_iff (budget count : Nat) :
    target.tokens context count = target.arGenerate context budget ↔ count ≤ budget ∧
        (∀ i, i + 1 < count → target.is_stop (target.token context i) = false) ∧
        (count = budget ∨ ∃ last, count = last + 1 ∧
            target.is_stop (target.token context last) = true) := by
  induction budget generalizing context count with
  | zero =>
    cases count with
    | zero =>
      refine iff_of_true rfl ⟨Nat.le_refl 0, ?_, Or.inl rfl⟩
      exact fun _ impossible => absurd impossible (Nat.not_lt_zero _)
    | succ count =>
      rw [tokens_cons]
      refine iff_of_false nofun ?_
      exact fun impossible => absurd impossible.1 (Nat.not_succ_le_zero _)
  | succ budget ih =>
    unfold arGenerate
    cases count with
    | zero =>
      refine iff_of_false nofun ?_
      rintro ⟨-, -, impossible | ⟨last, impossible, -⟩⟩
      · nomatch impossible
      · nomatch impossible
    | succ count =>
      rw [tokens_cons]
      have first : (target.sample context : Int) = target.token context 0 := by
        rw [token, tokens, append_nil]
      simp only [first, List.cons.injEq, true_and]
      by_cases isStop : target.is_stop (target.token context 0) = true
      · rw [if_pos isStop]
        constructor
        · intro empty
          have noMore : count = 0 := by
            have length := congrArg List.length empty
            rwa [length_tokens] at length
          subst noMore
          refine ⟨Nat.succ_le_succ (Nat.zero_le _), ?_, Or.inr ⟨0, rfl, isStop⟩⟩
          exact fun i less => absurd less (by omega)
        · rintro ⟨-, goesOn, -⟩
          cases count with
          | zero => rfl
          | succ count =>
            rw [goesOn 0 (by omega)] at isStop
            nomatch isStop
      · rw [if_neg isStop, ih]
        simp only [← token_succ, Nat.add_le_add_iff_right, Nat.add_right_cancel_iff]
        have notStop : target.is_stop (target.token context 0) = false :=
          Bool.eq_false_iff.mpr isStop
        refine and_congr_right fun _ => and_congr ?_ (or_congr_right ?_)
        · constructor
          · intro goesOn i less
            cases i with
            | zero => exact notStop
            | succ i => exact goesOn i (by omega)
          · intro goesOn i less
            exact goesOn (i + 1) (by omega)
        · constructor
          · rintro ⟨last, rfl, isLast⟩
            exact ⟨last + 1, rfl, isLast⟩
          · rintro ⟨last, rfl, isLast⟩
            cases count with
            | zero => exact absurd isLast isStop
            | succ last => exact ⟨last, rfl, isLast⟩

end

end Target

end Mnn.Llm
