import Mnn.Core.KVMeta
import Mnn.Llm.Generation

/-!
# Speculative decoding by blocks

A round gives the target model a block: the current token and the drafts behind
it.  The drafts which the target model predicts, too, are accepted, and the next
token is its prediction behind them.  The rows of the other drafts are dropped
from the KV cache.

What the draft model proposes is a parameter.  Forwards are taken to succeed,
and nobody cancels.
-/

namespace Mnn.Llm

open Mnn.Core
open List
open Nat

/-- What `DFlashGeneration` is given. -/
structure DFlashConfig where
  target : Target
  mBlockSize : Nat
  mShiftLabel : Nat
  /-- There is an output stream. -/
  os : Bool
  /-- A row of `draftArgmax` in a round. -/
  draftArgmax : Nat → Nat → Int
  two_le : 2 ≤ mBlockSize

/-- The caches, the context and the variables of `generate`. -/
structure DFlashState where
  /-- The tokens in the KV cache of the target model. -/
  rows : List Int
  mMeta : KVMeta
  /-- The rounds so far. -/
  calls : Nat
  current_token : Int
  /-- The number of tokens in front of `current_token`. -/
  place : Nat
  output_tokens : List Int
  len : Nat
  /-- The loop was left by a `break`. -/
  stop : Bool

/--
The loop of `acceptDraftPrefix`, from the first draft that is not compared yet.
The second number is that of the row with which `current_token` was set last.
-/
def acceptLoop (is_stop : Int → Bool) : List Int → List Int → Nat → Nat × Nat
  | target_prediction :: targetArgmax, draft :: block_ids, acceptance_length =>
    if target_prediction ≠ draft then
      (acceptance_length, acceptance_length)
    else if is_stop target_prediction then
      (acceptance_length + 1, acceptance_length)
    else
      acceptLoop is_stop targetArgmax block_ids (acceptance_length + 1)
  | _, _, acceptance_length => (acceptance_length, acceptance_length)

/-- How many drafts are accepted, and which row has the current token. -/
def acceptDraftPrefix (is_stop : Int → Bool) (targetArgmax block_ids : List Int)
    (blockSize : Nat) : Nat × Nat :=
  let accepted := acceptLoop is_stop targetArgmax (block_ids.drop 1) 0
  if accepted.1 = blockSize - 1 then
    (accepted.1, blockSize - 1)
  else
    accepted

/-- The accepted drafts are emitted up to a stop token. -/
def emitAccepted (is_stop : Int → Bool) : List Int → List Int × Bool
  | [] => ([], false)
  | token :: rest =>
    if is_stop token then
      ([token], true)
    else
      let emitted := emitAccepted is_stop rest
      (token :: emitted.1, emitted.2)

namespace DFlashState

variable (config : DFlashConfig)

/-- The tokens whose rows are kept by the next forward; no range is reserved. -/
def kept (state : DFlashState) : List Int :=
  state.rows.take (state.mMeta.previous - state.mMeta.remove)

/-- `buildBlock`, with the drafts in their slots. -/
def block (state : DFlashState) : List Int :=
  state.current_token :: (List.range (config.mBlockSize - 1)).map fun i =>
      config.draftArgmax state.calls (i + 1 - config.mShiftLabel)

/-- What the target model predicts behind each token of the block. -/
def targetArgmax (state : DFlashState) : List Int := (List.range config.mBlockSize).map fun i =>
    config.target.sample (state.kept ++ (state.block config).take (i + 1))

def accepted (state : DFlashState) : Nat × Nat :=
  acceptDraftPrefix config.target.is_stop (state.targetArgmax config)
    (state.block config) config.mBlockSize

/-- The prediction with which `acceptDraftPrefix` sets the current token. -/
def nextToken (state : DFlashState) : Int :=
  (state.targetArgmax config).getD (state.accepted config).2 0

/-- What is emitted of the accepted drafts. -/
def emitted (state : DFlashState) : List Int × Bool := emitAccepted config.target.is_stop
    (((state.block config).drop 1).take (state.accepted config).1)

/-- A round of the loop in `generate`, which is `verifyAcceptCommit`. -/
def round (state : DFlashState) : DFlashState :=
  let emitted := state.emitted config
  let current_token := state.nextToken config
  let totalAccepted := (state.accepted config).1 + 1
  { rows := state.kept ++ state.block config
    mMeta :=
      { ({ state.mMeta with add := config.mBlockSize } : KVMeta).sync with
        remove := config.mBlockSize - totalAccepted }
    calls := state.calls + 1
    current_token := current_token
    place := state.kept.length + (state.accepted config).2 + 1
    output_tokens :=
      if emitted.2 then
        state.output_tokens ++ emitted.1
      else
        state.output_tokens ++ emitted.1 ++ [current_token]
    len := state.len + totalAccepted
    stop := emitted.2 || (config.os && config.target.is_stop current_token) }

/-- The states in which the rounds of the loop begin; each makes `len` larger. -/
def rounds (max_token : Nat) : Nat → DFlashState → List DFlashState
  | 0, _ => []
  | fuel + 1, state =>
    if state.len < max_token ∧ state.stop = false then
      state :: rounds max_token fuel (state.round config)
    else
      []

/-- The state behind the rounds. -/
def final (state : DFlashState) (states : List DFlashState) : DFlashState :=
  match states.getLast? with
  | none => state
  | some last => last.round config

/-- The state behind the first token, with `context` in the KV cache. -/
def start (context : List Int) : DFlashState :=
  let current_token : Int := config.target.sample context
  { rows := context
    mMeta := { previous := context.length }
    calls := 0
    current_token := current_token
    place := context.length
    output_tokens := [current_token]
    len := 0
    stop := config.target.is_stop current_token }

/-- The states in which the rounds of `generate` begin. -/
def generate (context : List Int) (max_token : Nat) : List DFlashState :=
  rounds config max_token max_token (start config context)

/-- The tokens that `generate` emits. -/
def output (context : List Int) (max_token : Nat) : List Int := (final config (start config context)
      (generate config context max_token)).output_tokens

/--
The tokens are those of `ArGeneration`, and behind each round as many rows are
kept as there are tokens in front of the current one.
-/
def Lossless (context : List Int) (max_token : Nat) : Prop :=
  output config context max_token = config.target.arGenerate context max_token ∧
    ∀ state ∈ generate config context max_token,
      let next := state.round config
      next.mMeta.previous + next.mMeta.add - next.mMeta.remove = next.place

end DFlashState

/-!
# When block speculation is lossless

All tokens that are emitted are those which the target model samples one after
the other.  A stop token that was accepted as a draft ends the loop, but its row
stays in the KV cache unless it is in the last slot; a stop token that is sampled
behind the drafts ends the loop only if there is an output stream.
-/

/-! ## The accepted drafts -/

section Accept

variable {target : Target}

/-- The predictions behind the first tokens of some drafts. -/
def predictions (target : Target) (context drafts : List Int) : List Int :=
  (List.range (drafts.length + 1)).map fun i =>
    (target.sample (context ++ drafts.take i) : Int)

theorem predictions_cons (context : List Int) (draft : Int) (drafts : List Int) :
    predictions target context (draft :: drafts) = target.token context 0 ::
        predictions target (context ++ [draft]) drafts := by
  unfold predictions
  rw [length_cons, range_succ_eq_map, map_cons, map_map]
  congr 1
  apply map_congr_left
  intro i _
  rw [Function.comp, take_succ_cons, append_assoc, singleton_append]

/-- What is predicted behind drafts that agree with the target model. -/
theorem getD_predictions {context drafts : List Int} {count : Nat} (le : count ≤ drafts.length)
    (agree : drafts.take count = target.tokens context count) :
    (predictions target context drafts).getD count 0 = target.token context count := by
  unfold predictions
  rw [getD_eq_getElem?_getD, getElem?_map, getElem?_range (lt_succ_of_le le), Option.map_some,
    Option.getD_some, agree, Target.token]

/--
Which drafts are accepted: those of the target model up to the first other one,
or up to and with a stop token.
-/
theorem acceptLoop_spec (context drafts : List Int) (acceptance_length : Nat) :
    ∃ count ≤ drafts.length, drafts.take count = target.tokens context count ∧ (∀ i, i + 1 < count →
          target.is_stop (target.token context i) = false) ∧
          (acceptLoop target.is_stop (predictions target context drafts) drafts acceptance_length =
                (acceptance_length + count, acceptance_length + count) ∧
              (∀ i < count, target.is_stop (target.token context i) = false) ∧
                drafts[count]? ≠ some (target.token context count) ∨
            ∃ last, count = last + 1 ∧ acceptLoop target.is_stop (predictions target context drafts)
                    drafts acceptance_length =
                  (acceptance_length + count, acceptance_length + last) ∧
                target.is_stop (target.token context last) = true) := by
  induction drafts generalizing context acceptance_length with
  | nil =>
    refine ⟨0, Nat.le_refl 0, rfl, ?_, Or.inl ⟨rfl, ?_, ?_⟩⟩
    · exact fun _ impossible => absurd impossible (not_lt_zero _)
    · exact fun _ impossible => absurd impossible (not_lt_zero _)
    · exact nofun
  | cons draft drafts ih =>
    rw [predictions_cons]
    unfold acceptLoop
    by_cases differs : target.token context 0 ≠ draft
    · rw [if_pos differs]
      refine ⟨0, zero_le _, rfl, ?_, Or.inl ⟨rfl, ?_, ?_⟩⟩
      · exact fun _ impossible => absurd impossible (not_lt_zero _)
      · exact fun _ impossible => absurd impossible (not_lt_zero _)
      · exact fun same => differs (Option.some.inj same).symm
    · rw [if_neg differs]
      obtain rfl : target.token context 0 = draft := not_not.mp differs
      by_cases isStop : target.is_stop (target.token context 0) = true
      · rw [if_pos isStop]
        refine ⟨1, succ_le_succ (zero_le _), rfl, ?_, Or.inr ?_⟩
        · exact fun i impossible => absurd impossible (by omega)
        · exact ⟨0, rfl, rfl, isStop⟩
      · rw [if_neg isStop]
        have goesOn : target.is_stop (target.token context 0) = false :=
          Bool.eq_false_iff.mpr isStop
        obtain ⟨count, le, taken, earlier, cases⟩ :=
          ih (context ++ [target.token context 0]) (acceptance_length + 1)
        simp only [← Target.token_succ] at earlier cases
        refine ⟨count + 1, succ_le_succ le, ?_, ?_, ?_⟩
        · rw [take_succ_cons, taken, Target.tokens_cons]
        · intro i less
          cases i with
          | zero => exact goesOn
          | succ i => exact earlier i (by omega)
        · rcases cases with
            ⟨isLoop, noStop, other⟩ | ⟨last, isLast, isLoop, isStop⟩
          · left
            rw [isLoop, add_assoc, add_comm 1]
            refine ⟨rfl, fun i less => ?_, other⟩
            cases i with
            | zero => exact goesOn
            | succ i => exact noStop i (lt_of_succ_lt_succ less)
          · right
            refine ⟨last + 1, congrArg (· + 1) isLast, ?_, isStop⟩
            rw [isLoop, add_assoc, add_comm 1, add_assoc, add_comm 1]

section

variable {is_stop : Int → Bool} {tokens : List Int}

theorem emitAccepted_eq (noStop : ∀ token ∈ tokens, is_stop token = false) :
    emitAccepted is_stop tokens = (tokens, false) := by
  induction tokens with
  | nil => rfl
  | cons token rest ih =>
    unfold emitAccepted
    rw [if_neg (Bool.eq_false_iff.mp (noStop token mem_cons_self)), ih fun other member =>
        noStop other (mem_cons_of_mem _ member)]

theorem emitAccepted_stop {last : Int} (noStop : ∀ token ∈ tokens, is_stop token = false)
    (isStop : is_stop last = true) :
    emitAccepted is_stop (tokens ++ [last]) = (tokens ++ [last], true) := by
  induction tokens with
  | nil =>
    unfold emitAccepted
    rw [nil_append]
    simp only [if_pos isStop]
  | cons token rest ih =>
    rw [cons_append]
    unfold emitAccepted
    rw [if_neg (Bool.eq_false_iff.mp (noStop token mem_cons_self)), ih fun other member =>
        noStop other (mem_cons_of_mem _ member)]

theorem emitAccepted_pos (stops : (emitAccepted is_stop tokens).2 = true) :
    0 < (emitAccepted is_stop tokens).1.length := by
  cases tokens with
  | nil => nomatch stops
  | cons token rest =>
    unfold emitAccepted
    split
    · exact Nat.zero_lt_one
    · exact succ_pos _

end

theorem mem_tokens {context : List Int} {count : Nat} {token : Int} :
    token ∈ target.tokens context count ↔ ∃ i < count, target.token context i = token := by
  induction count with
  | zero =>
    refine iff_of_false not_mem_nil ?_
    rintro ⟨i, impossible, -⟩
    exact not_lt_zero i impossible
  | succ count ih =>
    rw [Target.tokens_succ, mem_append, ih, mem_singleton]
    constructor
    · rintro (⟨i, less, rfl⟩ | rfl)
      · exact ⟨i, lt_succ_of_lt less, rfl⟩
      · exact ⟨count, lt_succ_self _, rfl⟩
    · rintro ⟨i, less, rfl⟩
      rcases Nat.lt_succ_iff_lt_or_eq.mp less with before | rfl
      · exact Or.inl ⟨i, before, rfl⟩
      · exact Or.inr rfl

end Accept

namespace DFlashState

variable {config : DFlashConfig} {context : List Int} {state : DFlashState}

/-! ## One round -/

def drafts (config : DFlashConfig) (state : DFlashState) : List Int := (state.block config).drop 1

@[simp]
theorem length_drafts : (drafts config state).length = config.mBlockSize - 1 := by
  unfold drafts block
  rw [drop_one, tail_cons, length_map, length_range]

/-- The tokens up to the current one. -/
def text (state : DFlashState) : List Int := state.kept ++ [state.current_token]

theorem targetArgmax_eq :
    state.targetArgmax config = predictions config.target state.text (drafts config state) := by
  have two := config.two_le
  unfold targetArgmax predictions
  rw [length_drafts, Nat.sub_add_cancel (by omega)]
  apply map_congr_left
  intro i _
  unfold text block drafts
  rw [take_succ_cons, append_assoc, singleton_append]
  rfl

/-- So many tokens behind the context are forwarded; the next one is current. -/
structure Follows
    (config : DFlashConfig) (context : List Int) (count : Nat)
    (state : DFlashState) : Prop where
  previous : state.mMeta.previous = state.rows.length
  reserve : state.mMeta.reserve = []
  kept : state.kept = context ++ config.target.tokens context count
  current_token : state.current_token = config.target.token context count
  output_tokens : state.output_tokens = config.target.tokens context (count + 1)
  len : state.len = count

/-- As many rows are kept as there are tokens in front of the current one. -/
def Counted (state : DFlashState) : Prop :=
  state.mMeta.previous + state.mMeta.add - state.mMeta.remove = state.place

theorem Follows.round_kept {count : Nat}
    (follows : Follows config context count state) {accepted : Nat}
    (isAccepted : (state.accepted config).1 = accepted)
    (inBlock : accepted + 1 ≤ config.mBlockSize) :
    (state.round config).mMeta.previous = (state.round config).rows.length ∧
      (state.round config).mMeta.previous + (state.round config).mMeta.add -
          (state.round config).mMeta.remove =
        state.kept.length + (accepted + 1) ∧
      (state.round config).kept = state.kept ++ (state.block config).take (accepted + 1) := by
  have count : state.kept.length = state.mMeta.previous - state.mMeta.remove := by
    unfold DFlashState.kept
    rw [length_take, follows.previous]
    omega
  have size : (state.block config).length = config.mBlockSize := by
    have two := config.two_le
    unfold block
    rw [length_cons, length_map, length_range]
    omega
  have previous : (state.round config).mMeta.previous = state.kept.length + config.mBlockSize := by
    simp only [round, KVMeta.sync, follows.reserve, map_nil, sum_nil, add_zero, count]
  have remove : (state.round config).mMeta.remove = config.mBlockSize - (accepted + 1) := by
    rw [← isAccepted]
    rfl
  have rows : (state.round config).rows = state.kept ++ state.block config :=
    rfl
  refine ⟨?_, ?_, ?_⟩
  · rw [previous, rows, length_append, size]
  · rw [previous, remove, show (state.round config).mMeta.add = 0 from rfl]
    omega
  · have places : (state.round config).mMeta.previous - (state.round config).mMeta.remove =
          state.kept.length + (accepted + 1) := by
      rw [previous, remove]
      omega
    show (state.round config).rows.take _ = _
    rw [places, rows, take_append, take_of_length_le (Nat.le_add_right ..), Nat.add_sub_cancel_left]

/--
What a round needs.  If the drafts agree with the target model up to a stop token,
then it is the draft in the last slot, or else there is an output stream.
-/
def Careful (config : DFlashConfig) (state : DFlashState) : Prop :=
  let text := state.kept ++ [state.current_token]
  ∀ slot, (drafts config state).take slot = config.target.tokens text slot →
      (∀ i < slot, config.target.is_stop (config.target.token text i) = false) →
        config.target.is_stop (config.target.token text slot) = true →
          ((drafts config state)[slot]? = some (config.target.token text slot) →
              slot + 2 = config.mBlockSize) ∧
            ((drafts config state)[slot]? ≠ some (config.target.token text slot) →
              config.os = true)

theorem getElem?_of_take_eq {target : Target} {text drafts : List Int}
    {count : Nat} (agree : drafts.take count = target.tokens text count)
    {i : Nat} (less : i < count) :
    drafts[i]? = some (target.token text i) := by
  have token : (target.tokens text count)[i]? = some (target.token text i) := by
    obtain ⟨more, rfl⟩ := Nat.exists_eq_add_of_lt less
    rw [add_assoc, Target.tokens_add, Target.tokens_cons,
      getElem?_append_right (Nat.le_of_eq (Target.length_tokens ..)),
      Target.length_tokens, Nat.sub_self, getElem?_cons_zero,
      ← Target.token_add, add_zero]
  rw [← token, ← agree, getElem?_take_of_lt less]

/-- Behind drafts without a stop token it is the correction that matters. -/
theorem careful_iff_correction {count : Nat}
    (agree : (drafts config state).take count = config.target.tokens state.text count)
    (noStop : config.target.NoStop state.text count)
    (other : (drafts config state)[count]? ≠ some (config.target.token state.text count)) :
    Careful config state ↔
      (config.target.is_stop (config.target.token state.text count) = true → config.os = true) := by
  constructor
  · exact fun careful isStop => (careful count agree noStop isStop).2 other
  · intro stream slot same _ isStop
    rcases Nat.eq_or_lt_of_le (noStop.le isStop) with rfl | behind
    · exact ⟨fun same => absurd same other, fun _ => stream isStop⟩
    · exact absurd (getElem?_of_take_eq same behind) other

theorem careful_iff_last {last : Nat}
    (agree : (drafts config state).take (last + 1) = config.target.tokens state.text (last + 1))
    (noStop : config.target.NoStop state.text last)
    (isStop : config.target.is_stop (config.target.token state.text last) = true) :
    Careful config state ↔ last + 2 = config.mBlockSize := by
  have draft := getElem?_of_take_eq agree (lt_succ_self last)
  constructor
  · intro careful
    refine (careful last ?_ noStop isStop).1 draft
    have shorter := congrArg (List.take last) agree
    rwa [take_take, Nat.min_eq_left (Nat.le_succ last), Target.tokens_succ,
      take_left' (Target.length_tokens ..)] at shorter
  · intro isLast slot _ earlier stop
    have same : slot = last := Nat.le_antisymm (Target.NoStop.le earlier isStop) (noStop.le stop)
    subst same
    exact ⟨fun _ => isLast, fun other => absurd draft other⟩

theorem accepted_eq :
    state.accepted config =
      (let accepted :=
        acceptLoop config.target.is_stop (predictions config.target state.text (drafts config state))
          (drafts config state) 0
      if accepted.1 = config.mBlockSize - 1 then
        (accepted.1, config.mBlockSize - 1)
      else
        accepted) := by
  unfold DFlashState.accepted acceptDraftPrefix
  rw [targetArgmax_eq]
  rfl

section

variable {count : Nat} (follows : Follows config context count state)

include follows

theorem Follows.text :
    state.text = context ++ config.target.tokens context (count + 1) := by
  rw [DFlashState.text, follows.kept, follows.current_token, Target.tokens_succ, append_assoc]

theorem Follows.token (i : Nat) :
    config.target.token state.text i = config.target.token context (count + 1 + i) := by
  rw [follows.text, Target.token_add]

theorem Follows.tokens (i : Nat) :
    config.target.tokens context (count + 1) ++
        config.target.tokens state.text i = config.target.tokens context (count + 1 + i) := by
  rw [follows.text]
  exact (config.target.tokens_add context (count + 1) i).symm

end

theorem Follows.goesOn {count accepted : Nat} (follows : Follows config context count state)
    (isAccepted : state.accepted config = (accepted, accepted))
    (le : accepted ≤ config.mBlockSize - 1)
    (agree : (drafts config state).take accepted = config.target.tokens state.text accepted)
    (noStop : config.target.NoStop state.text accepted) :
    Follows config context (count + 1 + accepted) (state.round config) ∧
      Counted (state.round config) ∧ (state.round config).stop = (config.os && config.target.is_stop
              (config.target.token context (count + 1 + accepted))) := by
  have two := config.two_le
  have emitted : state.emitted config = (config.target.tokens state.text accepted, false) := by
    unfold DFlashState.emitted
    rw [isAccepted, show (state.block config).drop 1 = drafts config state from rfl, agree]
    apply emitAccepted_eq
    intro token member
    obtain ⟨i, less, rfl⟩ := mem_tokens.mp member
    exact noStop i less
  have nextToken : state.nextToken config = config.target.token context (count + 1 + accepted) := by
    unfold DFlashState.nextToken
    rw [isAccepted, targetArgmax_eq, getD_predictions (by rwa [length_drafts]) agree, follows.token]
  obtain ⟨previous, places, kept⟩ := follows.round_kept (congrArg Prod.fst isAccepted) (by omega)
  refine ⟨⟨previous, rfl, ?_, nextToken, ?_, ?_⟩, ?_, ?_⟩
  · rw [kept, show state.block config =
      state.current_token :: drafts config state from rfl, take_succ_cons,
      agree, append_cons, ← DFlashState.text, follows.text, append_assoc, ← follows.text,
      follows.tokens]
  · unfold round
    simp only [emitted, Bool.false_eq_true, if_false]
    rw [nextToken, follows.output_tokens, follows.tokens, Target.tokens_succ]
  · unfold round
    simp only [isAccepted, follows.len]
    omega
  · unfold Counted
    rw [places]
    unfold round
    simp only [isAccepted, add_assoc]
  · unfold round
    simp only [emitted, nextToken, Bool.false_or]

theorem Follows.stops {count last : Nat} (follows : Follows config context count state)
    (isAccepted :
      state.accepted config = (last + 1,
          if last + 2 = config.mBlockSize then last + 1 else last))
    (le : last + 1 ≤ config.mBlockSize - 1)
    (agree : (drafts config state).take (last + 1) = config.target.tokens state.text (last + 1))
    (noStop : config.target.NoStop state.text last)
    (isStop : config.target.is_stop (config.target.token state.text last) = true) :
    (state.round config).stop = true ∧ (state.round config).output_tokens =
          config.target.tokens context (count + 1 + (last + 1)) ∧
        (Counted (state.round config) ↔ last + 2 = config.mBlockSize) := by
  have emitted : state.emitted config = (config.target.tokens state.text (last + 1), true) := by
    unfold DFlashState.emitted
    rw [isAccepted, show (state.block config).drop 1 = drafts config state from rfl,
      agree, Target.tokens_succ]
    apply emitAccepted_stop _ isStop
    intro token member
    obtain ⟨i, less, rfl⟩ := mem_tokens.mp member
    exact noStop i less
  obtain ⟨-, places, -⟩ := follows.round_kept (congrArg Prod.fst isAccepted) (by omega)
  refine ⟨?_, ?_, ?_⟩
  · unfold round
    simp only [emitted, Bool.true_or]
  · unfold round
    simp only [emitted, if_true]
    rw [follows.output_tokens, follows.tokens]
  · unfold Counted
    rw [places]
    unfold round
    simp only [isAccepted]
    split
    · rename_i isLast
      exact iff_of_true rfl isLast
    · rename_i notLast
      exact iff_of_false (by omega) notLast

/-- What a round does: it goes on, or emits a stop token that was accepted. -/
theorem Follows.round_spec {count : Nat} (follows : Follows config context count state) :
    ∃ accepted, (∀ i, i + 1 < accepted →
        config.target.is_stop (config.target.token context (count + 1 + i)) = false) ∧
      (((∀ i < accepted, config.target.is_stop (config.target.token context (count + 1 + i)) =
                false) ∧
            (Follows config context (count + 1 + accepted) (state.round config) ∧
              Counted (state.round config) ∧
              (state.round config).stop = (config.os && config.target.is_stop
                    (config.target.token context (count + 1 + accepted)))) ∧
                (Careful config state ↔ (config.target.is_stop
                        (config.target.token context (count + 1 + accepted)) =
                      true →
                    config.os = true))) ∨
          ∃ last, accepted = last + 1 ∧ config.target.is_stop
                (config.target.token context (count + 1 + last)) =
              true ∧
              (state.round config).stop = true ∧ (state.round config).output_tokens =
                  config.target.tokens context (count + 1 + accepted) ∧
                  (Counted (state.round config) ↔ Careful config state)) := by
  have two := config.two_le
  obtain ⟨accepted, le, agree, earlier, cases⟩ :=
    @acceptLoop_spec config.target state.text (drafts config state) 0
  rw [length_drafts] at le
  refine ⟨accepted, fun i less => follows.token i ▸ earlier i less, ?_⟩
  rcases cases with ⟨isCount, noStop, other⟩ | ⟨last, rfl, isCount, isStop⟩
  · left
    have isAccepted : state.accepted config = (accepted, accepted) := by
      rw [accepted_eq]
      simp only [isCount, zero_add]
      split
      · rename_i isLast
        exact congrArg (Prod.mk accepted) isLast.symm
      · rfl
    refine ⟨fun i less => follows.token i ▸ noStop i less,
      follows.goesOn isAccepted le agree noStop, ?_⟩
    rw [careful_iff_correction agree noStop other, follows.token]
  · right
    have isAccepted :
        state.accepted config = (last + 1,
            if last + 2 = config.mBlockSize then last + 1 else last) := by
      rw [accepted_eq]
      simp only [isCount, zero_add]
      split
      · rename_i isLast
        rw [if_pos (by omega), isLast]
      · rename_i notLast
        rw [if_neg (by omega)]
    have noStop (i : Nat) (less : i < last) := earlier i (succ_lt_succ less)
    obtain ⟨stops, output, counted⟩ := follows.stops isAccepted le agree noStop isStop
    exact ⟨last, rfl, follows.token last ▸ isStop, stops, output,
      counted.trans (careful_iff_last agree noStop isStop).symm⟩

/-! ## All rounds -/

theorem rounds_done {max_token : Nat} (fuel : Nat)
    (done : ¬(state.len < max_token ∧ state.stop = false)) :
    rounds config max_token fuel state = [] := by
  cases fuel with
  | zero => rfl
  | succ fuel => exact if_neg done

theorem final_cons (other : DFlashState) (states : List DFlashState) :
    final config other (state :: states) = final config (state.round config) states := by
  cases states with
  | nil => rfl
  | cons next states =>
    unfold final
    rw [getLast?_cons_cons, getLast?_cons]

theorem output_lt : state.output_tokens.length < (state.round config).output_tokens.length := by
  unfold round
  show _ < (if (state.emitted config).2 = true then _ else _ : List Int).length
  split
  · rename_i stops
    rw [length_append]
    exact Nat.lt_add_of_pos_right (emitAccepted_pos stops)
  · rw [length_append, length_append, length_singleton]
    omega

theorem output_le_final (max_token fuel : Nat) (state : DFlashState) :
    state.output_tokens.length ≤ (final config state
        (rounds config max_token fuel state)).output_tokens.length := by
  induction fuel generalizing state with
  | zero => exact Nat.le_refl _
  | succ fuel ih =>
    unfold rounds
    split
    · rw [final_cons]
      exact Nat.le_trans (Nat.le_of_lt output_lt) (ih _)
    · exact Nat.le_refl _

/-- What `generate` emits, and what it keeps behind each round. -/
def LosslessFrom (config : DFlashConfig) (context : List Int) (max_token fuel : Nat)
    (state : DFlashState) : Prop :=
  (final config state (rounds config max_token fuel state)).output_tokens =
      config.target.arGenerate context max_token ∧
    ∀ before ∈ rounds config max_token fuel state, Counted (before.round config)

/-- The first stop token is within the budget. -/
def StopsWithin (target : Target) (context : List Int) (max_token : Nat) : Prop :=
  ∃ last < max_token, target.is_stop (target.token context last) = true ∧
      ∀ i < last, target.is_stop (target.token context i) = false

/-- When the first tokens up to a stop token are what is generated. -/
theorem tokens_eq_arGenerate_iff_stopsWithin {target : Target} {max_token last : Nat}
    (isStop : target.is_stop (target.token context last) = true)
    (noStop : target.NoStop context last) :
    target.tokens context (last + 1) = target.arGenerate context max_token ↔
      StopsWithin target context max_token := by
  rw [Target.tokens_eq_arGenerate_iff]
  constructor
  · rintro ⟨less, -, -⟩
    exact ⟨last, less, isStop, noStop⟩
  · rintro ⟨other, less, otherStop, otherNoStop⟩
    have same : other = last :=
      Nat.le_antisymm (Target.NoStop.le otherNoStop isStop) (noStop.le otherStop)
    subst same
    refine ⟨less, fun i less => ?_, Or.inr ⟨other, rfl, isStop⟩⟩
    exact noStop i (lt_of_succ_lt_succ less)

theorem losslessFrom_done {max_token : Nat} (fuel : Nat)
    (done : ¬(state.len < max_token ∧ state.stop = false)) :
    LosslessFrom config context max_token fuel state ↔
      state.output_tokens = config.target.arGenerate context max_token := by
  unfold LosslessFrom
  rw [rounds_done fuel done]
  refine and_iff_left ?_
  exact fun before impossible => nomatch impossible

section

variable {max_token : Nat} (fuel : Nat) (goesOn : state.len < max_token ∧ state.stop = false)

include fuel goesOn

theorem rounds_succ :
    rounds config max_token (fuel + 1) state =
      state :: rounds config max_token fuel (state.round config) :=
  if_pos goesOn

theorem losslessFrom_round :
    LosslessFrom config context max_token (fuel + 1) state ↔ Counted (state.round config) ∧
        LosslessFrom config context max_token fuel (state.round config) := by
  unfold LosslessFrom
  rw [rounds_succ fuel goesOn, final_cons, forall_mem_cons]
  tauto

end

theorem not_losslessFrom_of_passed {max_token fuel last : Nat}
    (isStop : config.target.is_stop (config.target.token context last) = true)
    (noStop : config.target.NoStop context last)
    (passed : min max_token (last + 1) < (final config state
        (rounds config max_token fuel state)).output_tokens.length) :
    ¬LosslessFrom config context max_token fuel state := by
  rintro ⟨output, -⟩
  rw [output] at passed
  have isTokens :
      config.target.tokens context (min max_token (last + 1)) =
        config.target.arGenerate context max_token := by
    rw [Target.tokens_eq_arGenerate_iff]
    refine ⟨Nat.min_le_left .., fun i less => noStop i (by omega), ?_⟩
    rcases Nat.le_total max_token (last + 1) with le | le
    · exact Or.inl (Nat.min_eq_left le)
    · exact Or.inr ⟨last, Nat.min_eq_right le, isStop⟩
  rw [← isTokens, Target.length_tokens] at passed
  exact Nat.lt_irrefl _ passed

theorem Follows.losslessFrom_iff_of_le {count max_token : Nat}
    (follows : Follows config context count state) (fuel : Nat) (full : max_token ≤ count)
    (noStop : config.target.NoStop context max_token) :
    LosslessFrom config context max_token fuel state ↔ StopsWithin config.target context max_token ∧
        ∀ before ∈ rounds config max_token fuel state, Careful config before := by
  refine iff_of_false ?_ ?_
  · rw [losslessFrom_done fuel (by rw [follows.len]; omega),
      follows.output_tokens, Target.tokens_eq_arGenerate_iff]
    rintro ⟨inBudget, -⟩
    omega
  · rintro ⟨⟨last, less, isStop, -⟩, -⟩
    exact absurd (noStop.le isStop) (Nat.not_le_of_lt less)

/-- With a stop token as the correction, only an output stream ends the loop. -/
theorem Follows.losslessFrom_iff_of_isStop {count max_token fuel : Nat}
    (follows : Follows config context count state) (enough : max_token ≤ count + fuel)
    (isStop : config.target.is_stop (config.target.token context count) = true)
    (noStop : config.target.NoStop context count) (stop : state.stop = config.os) :
    LosslessFrom config context max_token fuel state ↔
      StopsWithin config.target context max_token ∧ config.os = true ∧
        ∀ before ∈ rounds config max_token fuel state, Careful config before := by
  cases stream : config.os with
  | true =>
    have done (goesOn : state.len < max_token ∧ state.stop = false) :
        False := by
      rw [stop, stream] at goesOn
      nomatch goesOn.2
    rw [losslessFrom_done fuel done, rounds_done fuel done, follows.output_tokens,
      tokens_eq_arGenerate_iff_stopsWithin isStop noStop]
    refine (and_iff_left ⟨rfl, ?_⟩).symm
    exact fun before impossible => nomatch impossible
  | false =>
    refine iff_of_false (not_losslessFrom_of_passed isStop noStop ?_)
      fun impossible => nomatch impossible.2.1
    have emitted := congrArg List.length follows.output_tokens
    rw [Target.length_tokens] at emitted
    rcases Nat.lt_or_ge count max_token with less | full
    · rw [Nat.min_eq_right less, Nat.succ_eq_add_one, ← emitted]
      cases fuel with
      | zero => omega
      | succ fuel =>
        rw [rounds_succ fuel ⟨follows.len ▸ less, stop.trans stream⟩, final_cons]
        exact Nat.lt_of_lt_of_le output_lt (output_le_final ..)
    · have le := @output_le_final config max_token fuel state
      omega

theorem Follows.losslessFrom_iff {count : Nat}
    (follows : Follows config context count state) (max_token fuel : Nat)
    (enough : max_token ≤ count + fuel)
    (noStop : ∀ i ≤ count, config.target.is_stop (config.target.token context i) = false)
    (goesOn : state.stop = false) :
    LosslessFrom config context max_token fuel state ↔ StopsWithin config.target context max_token ∧
        ∀ before ∈ rounds config max_token fuel state, Careful config before := by
  induction fuel generalizing count state with
  | zero =>
    exact follows.losslessFrom_iff_of_le 0 enough fun i less => noStop i (by omega)
  | succ fuel ih =>
    rcases Nat.lt_or_ge count max_token with less | full
    swap
    · exact follows.losslessFrom_iff_of_le _ full fun i less => noStop i (by omega)
    · have goes : state.len < max_token ∧ state.stop = false := ⟨follows.len ▸ less, goesOn⟩
      rw [losslessFrom_round fuel goes, rounds_succ fuel goes, forall_mem_cons]
      obtain ⟨accepted, earlier, cases⟩ := follows.round_spec
      have noStopBefore (emitted : Nat) (others : ∀ i < emitted,
            config.target.is_stop (config.target.token context (count + 1 + i)) = false) :
          config.target.NoStop context (count + 1 + emitted) := by
        intro i before
        rcases Nat.lt_or_ge i (count + 1) with first | behind
        · exact noStop i (le_of_lt_succ first)
        · obtain ⟨j, rfl⟩ := Nat.exists_eq_add_of_le behind
          exact others j (Nat.lt_of_add_lt_add_left before)
      rcases cases with
        ⟨noStops, ⟨next, counted, stop⟩, careful⟩ | ⟨last, rfl, isStop, stop, output, counted⟩
      · have noStop' := noStopBefore accepted noStops
        rw [careful, and_iff_right counted]
        by_cases isStop : config.target.is_stop
                (config.target.token context (count + 1 + accepted)) =
              true
        · rw [isStop, Bool.and_true] at stop
          rw [next.losslessFrom_iff_of_isStop (by omega) isStop noStop' stop]
          refine and_congr_right fun _ => and_congr_left fun _ => ?_
          exact ⟨fun stream _ => stream, fun stream => stream isStop⟩
        · have goesOn' := Bool.eq_false_iff.mpr isStop
          rw [goesOn', Bool.and_false] at stop
          rw [ih next (by omega) ?_ stop]
          · refine and_congr_right fun _ => (and_iff_right ?_).symm
            exact fun impossible => absurd impossible isStop
          · intro i le
            rcases Nat.lt_or_eq_of_le le with before | rfl
            · exact noStop' i before
            · exact goesOn'
      · have done (impossible :
            (state.round config).len < max_token ∧ (state.round config).stop = false) :
            False := by
          rw [stop] at impossible
          nomatch impossible.2
        have noStop' := noStopBefore last fun i less =>
          earlier i (succ_lt_succ less)
        rw [losslessFrom_done fuel done, rounds_done fuel done, output, counted, ← add_assoc,
          tokens_eq_arGenerate_iff_stopsWithin isStop noStop', and_comm]
        refine and_congr_right fun _ => (and_iff_left ?_).symm
        exact fun before impossible => nomatch impossible

/--
Block speculation is lossless exactly if a stop token ends the text within the
budget and each round can cope with the place at which that token is found.
-/
theorem lossless_iff (config : DFlashConfig) (context : List Int) (max_token : Nat) :
    Lossless config context max_token ↔ StopsWithin config.target context max_token ∧
        ∀ before ∈ generate config context max_token, Careful config before := by
  have follows : Follows config context 0 (start config context) :=
    { previous := rfl
      reserve := rfl
      kept := by
        show context.take (context.length - 0) = context ++ []
        rw [Nat.sub_zero, take_length, append_nil]
      current_token := by
        rw [Target.token, Target.tokens, append_nil]
        rfl
      output_tokens := by
        rw [Target.tokens_one, Target.token, Target.tokens, append_nil]
        rfl
      len := rfl }
  have stop :
      (start config context).stop = config.target.is_stop (config.target.token context 0) := by
    rw [← follows.current_token]
    rfl
  by_cases isStop : config.target.is_stop (config.target.token context 0) = true
  · have done (impossible :
        (start config context).len < max_token ∧ (start config context).stop = false) :
        False := by
      rw [stop, isStop] at impossible
      cases impossible.2
    unfold generate
    rw [rounds_done max_token done, ← tokens_eq_arGenerate_iff_stopsWithin isStop
      fun _ impossible => absurd impossible (not_lt_zero _),
      ← follows.output_tokens]
    show LosslessFrom config context max_token max_token _ ↔ _
    rw [losslessFrom_done max_token done]
    refine (and_iff_left ?_).symm
    exact fun before impossible => absurd impossible not_mem_nil
  · have goesOn := Bool.eq_false_iff.mpr isStop
    refine follows.losslessFrom_iff max_token max_token (Nat.le_add_left ..) ?_ (stop.trans goesOn)
    intro i le
    rw [le_zero.mp le]
    exact goesOn

/-- Without a stop token the budget is exceeded. -/
theorem not_lossless :
    ¬∀ (config : DFlashConfig) (context : List Int) (max_token : Nat),
      Lossless config context max_token := by
  intro always
  let config : DFlashConfig :=
    { target := { sample := fun _ => 1, is_stop := fun _ => false }
      mBlockSize := 2
      mShiftLabel := 0
      os := true
      draftArgmax := fun _ _ => 2
      two_le := Nat.le_refl 2 }
  exact absurd (always config [5] 1).1 (by decide)

end DFlashState

end Mnn.Llm
