import Mnn.Core.KVMeta
import Mnn.Llm.Generation

/-!
# Speculative decoding with a draft model

Each round gives the target model the current token and the drafts behind it,
and keeps those that the target model samples, too.  The target model and the
draft model have a KV cache each, which the meta data count.
-/

namespace Mnn.Llm

open Mnn.Core
open List

/-- `draftVerify`, from the first of the drafts that is not yet compared. -/
def draftVerify (target : Target) (context : List Int) : List Int → Nat → Nat × Int × Bool
  | [], i_dft => (i_dft, target.sample context, false)
  | draft :: drafts, i_dft =>
    let predict : Int := target.sample context
    if target.is_stop predict then
      (i_dft, predict, true)
    else if predict ≠ draft then
      (i_dft, predict, false)
    else
      draftVerify target (context ++ [draft]) drafts (i_dft + 1)

/-- What `MtpGeneration` is given, and what its draft model samples. -/
structure MtpConfig where
  target : Target
  mDraftLength : Nat
  /-- The token that is sampled at a place behind a call of `mtpForward`. -/
  mtpSample : Nat → Nat → Int

/-- The caches, the context and the variables of `generate`. -/
structure MtpState where
  /-- The tokens in the KV cache of the target model. -/
  rows : List Int
  mMeta : KVMeta
  mMtpMeta : KVMeta
  /-- The calls of `mtpForward` so far. -/
  calls : Nat
  current_token : Int
  mtp_draft : List Int
  len : Nat
  output_tokens : List Int
  /-- The loop was left by a `break`. -/
  finished : Bool

namespace MtpState

/-- `forwardVec`, with `mMeta->add` set. -/
def forwardVec (state : MtpState) (input_ids : List Int) : MtpState :=
  { state with
    rows := state.rows.take (state.mMeta.previous - state.mMeta.remove) ++ input_ids
    mMeta := { state.mMeta with add := input_ids.length }.sync }

/-- `mtpForward`, and the drafts that are sampled behind it. -/
def mtpForward (config : MtpConfig) (state : MtpState) (seq_len : Nat) :
    MtpState :=
  { state with
    mMtpMeta := { state.mMtpMeta with add := seq_len }.sync
    calls := state.calls + 1
    mtp_draft := (List.range config.mDraftLength).map (config.mtpSample state.calls) }

/--
The state before the loop: `context` is in the KV cache of the target model,
`mtpPrevious` rows are in that of the draft model, to which the `seq_len` rows
of the prompt come.
-/
def start (config : MtpConfig) (context : List Int) (mtpPrevious seq_len : Nat)
    (current_token : Int) : MtpState :=
  mtpForward config
    { rows := context
      mMeta := { previous := context.length }
      mMtpMeta := { previous := mtpPrevious }
      calls := 0
      current_token := current_token
      mtp_draft := []
      len := 0
      output_tokens := []
      finished := false }
    seq_len

/-- A round of the loop in `generate`. -/
def round (config : MtpConfig) (state : MtpState) : MtpState :=
  let drafts := state.current_token :: state.mtp_draft
  let context :=
    state.rows.take (state.mMeta.previous - state.mMeta.remove) ++ [state.current_token]
  let verified := draftVerify config.target context state.mtp_draft 1
  let i_dft := verified.1
  let current_token := verified.2.1
  let state := state.forwardVec drafts
  let currentIds := (drafts.take i_dft).drop 1 ++ [current_token]
  let state := mtpForward config state currentIds.length
  let remove := drafts.length - i_dft
  let output_tokens := state.output_tokens ++ drafts.take i_dft
  let finished := verified.2.2 || config.target.is_stop current_token
  { state with
    mMtpMeta := { state.mMtpMeta with remove := remove }
    mMeta := { state.mMeta with remove := remove }
    current_token := current_token
    len := state.len + i_dft
    output_tokens :=
      if finished then output_tokens ++ [current_token] else output_tokens
    finished := finished }

/-- The states behind the rounds; each round makes `len` larger. -/
def rounds (config : MtpConfig) (max_token : Nat) : Nat → MtpState → List MtpState
  | 0, _ => []
  | fuel + 1, state =>
    if state.len < max_token ∧ state.finished = false then
      state.round config :: rounds config max_token fuel (state.round config)
    else
      []

/-- The states behind the rounds of `generate`. -/
def generate (config : MtpConfig) (context : List Int) (mtpPrevious seq_len : Nat)
    (current_token : Int) (max_token : Nat) : List MtpState :=
  rounds config max_token max_token (start config context mtpPrevious seq_len current_token)

/-- The tokens that were emitted in some rounds. -/
def emitted (states : List MtpState) : List Int :=
  match states.getLast? with
  | none => []
  | some state => state.output_tokens

/--
The next synced length of the draft cache is the number of its rows that belong
to accepted tokens: those of earlier turns, those of the prompt, and one for
each token that was accepted.
-/
structure InStep (mtpPrevious seq_len : Nat) (state : MtpState) : Prop where
  removes : state.mMtpMeta.remove ≤ state.mMtpMeta.previous + state.mMtpMeta.add
  length :
    state.mMtpMeta.previous + state.mMtpMeta.add - state.mMtpMeta.remove =
      mtpPrevious + seq_len + state.len

end MtpState

/-!
# When the draft cache stays in step

`mtpForward` adds a row for each token that was accepted, and then as many rows
are removed as drafts were refused.  So the draft cache stays in step exactly
as long as all drafts are accepted, which makes each round emit the same number
of tokens.
-/

/-! ## Verification -/

section Verification

variable {target : Target}

/-- The verification accepts some drafts, and samples a token behind them. -/
theorem draftVerify_le (context drafts : List Int) (i_dft : Nat) :
    i_dft ≤ (draftVerify target context drafts i_dft).1 ∧
      (draftVerify target context drafts i_dft).1 ≤ i_dft + drafts.length := by
  induction drafts generalizing context i_dft with
  | nil => exact ⟨Nat.le_refl _, Nat.le_refl _⟩
  | cons draft drafts ih =>
    unfold draftVerify
    rw [length_cons]
    simp only
    split
    · exact ⟨Nat.le_refl _, Nat.le_add_right ..⟩
    · split
      · exact ⟨Nat.le_refl _, Nat.le_add_right ..⟩
      · rcases ih (context ++ [draft]) (i_dft + 1) with ⟨least, most⟩
        constructor
        · exact Nat.le_of_succ_le least
        · omega

/-- All drafts are accepted exactly if the target model samples them. -/
theorem draftVerify_all_iff (context drafts : List Int) (i_dft : Nat) :
    (draftVerify target context drafts i_dft).1 = i_dft + drafts.length ↔
      drafts = target.tokens context drafts.length ∧ ∀ i < drafts.length,
          target.is_stop (target.token context i) = false := by
  induction drafts generalizing context i_dft with
  | nil =>
    refine iff_of_true rfl ⟨rfl, ?_⟩
    exact fun _ impossible => absurd impossible (Nat.not_lt_zero _)
  | cons draft drafts ih =>
    have first : (target.sample context : Int) = target.token context 0 := by
      rw [Target.token, Target.tokens, append_nil]
    have notAll : i_dft ≠ i_dft + (drafts.length + 1) := by
      omega
    unfold draftVerify
    rw [length_cons, Target.tokens_cons]
    simp only [first, List.cons.injEq]
    split
    · next isStop =>
      refine iff_of_false notAll ?_
      rintro ⟨-, goesOn⟩
      rw [goesOn 0 (Nat.succ_pos _)] at isStop
      cases isStop
    · next notStop =>
      split
      · next differs =>
        refine iff_of_false notAll ?_
        rintro ⟨⟨same, -⟩, -⟩
        exact differs same.symm
      · next same =>
        rw [not_not] at same
        subst same
        rw [← Nat.add_assoc, Nat.add_right_comm, ih]
        simp only [← Target.token_succ, true_and]
        refine and_congr_right fun _ => ?_
        constructor
        · intro goesOn i less
          cases i with
          | zero => exact Bool.eq_false_iff.mpr notStop
          | succ i => exact goesOn i (Nat.lt_of_succ_lt_succ less)
        · intro goesOn i less
          exact goesOn (i + 1) (Nat.succ_lt_succ less)

theorem draftVerify_of_all {context drafts : List Int} {i_dft : Nat} (all :
      (draftVerify target context drafts i_dft).1 = i_dft + drafts.length) :
    (draftVerify target context drafts i_dft).2 = (target.token context drafts.length, false) := by
  induction drafts generalizing context i_dft with
  | nil =>
    rw [draftVerify, length_nil, Target.token, Target.tokens, append_nil]
  | cons draft drafts ih =>
    have first : (target.sample context : Int) = target.token context 0 := by
      rw [Target.token, Target.tokens, append_nil]
    have same := ((draftVerify_all_iff context (draft :: drafts) i_dft).mp all).1
    rw [length_cons, Target.tokens_cons] at same
    have isDraft := (List.cons.inj same).1
    have notAll : i_dft ≠ i_dft + (drafts.length + 1) := by
      omega
    unfold draftVerify at all ⊢
    simp only [first, length_cons] at all ⊢
    split at all
    · exact absurd all notAll
    · next notStop =>
      split at all
      · exact absurd all notAll
      · next isSame =>
        rw [if_neg notStop, if_neg isSame, Target.token_succ, ← isDraft]
        apply ih
        rw [all]
        omega

end Verification

namespace MtpState

variable {config : MtpConfig} {context : List Int} {mtpPrevious seq_len : Nat} {state : MtpState}

/-- The tokens of a round in which all drafts are accepted. -/
def roundSize (config : MtpConfig) : Nat := config.mDraftLength + 1

/-! ## One round -/

/-- The state behind rounds in which all drafts were accepted. -/
structure AllAccepted
    (config : MtpConfig) (context : List Int) (mtpPrevious seq_len : Nat)
    (number : Nat) (state : MtpState) : Prop where
  rows :
    state.rows.take (state.mMeta.previous - state.mMeta.remove) =
      context ++ config.target.tokens context (number * roundSize config)
  mMtpMeta : state.mMtpMeta = { previous := mtpPrevious + seq_len + number * roundSize config }
  calls : state.calls = number + 1
  current_token : state.current_token = config.target.token context (number * roundSize config)
  mtp_draft : state.mtp_draft = (List.range config.mDraftLength).map (config.mtpSample number)
  len : state.len = number * roundSize config
  output_tokens : state.output_tokens = config.target.tokens context (number * roundSize config)
  finished : state.finished = false

/-- The drafts of a round are what the target model goes on with. -/
def Accepts (config : MtpConfig) (context : List Int) (number : Nat) : Prop :=
  ∀ i < config.mDraftLength, config.mtpSample number i =
        config.target.token context (number * roundSize config + 1 + i) ∧
      config.target.is_stop (config.target.token context (number * roundSize config + 1 + i)) =
        false

theorem map_eq_tokens_iff {target : Target} {context : List Int} {count : Nat} {value : Nat → Int} :
    (List.range count).map value = target.tokens context count ↔
      ∀ i < count, value i = target.token context i := by
  induction count with
  | zero =>
    refine iff_of_true rfl ?_
    exact fun _ impossible => absurd impossible (Nat.not_lt_zero _)
  | succ count ih =>
    rw [range_succ, map_append, map_singleton, Target.tokens_succ, append_singleton_inj, ih]
    constructor
    · rintro ⟨earlier, here⟩ i less
      rcases Nat.lt_succ_iff_lt_or_eq.mp less with before | rfl
      · exact earlier i before
      · exact here
    · intro all
      exact ⟨fun i less => all i (Nat.lt_succ_of_lt less), all count (Nat.lt_succ_self _)⟩

/-- What the target model is asked about in a round. -/
def verified (config : MtpConfig) (state : MtpState) : Nat × Int × Bool := draftVerify config.target
    (state.rows.take (state.mMeta.previous - state.mMeta.remove) ++ [state.current_token])
    state.mtp_draft 1

namespace AllAccepted

variable {number : Nat}

section

variable (all : AllAccepted config context mtpPrevious seq_len number state)

include all

theorem text :
    state.rows.take (state.mMeta.previous - state.mMeta.remove) ++ [state.current_token] =
      context ++ config.target.tokens context (number * roundSize config + 1) := by
  rw [all.rows, all.current_token, Target.tokens_succ, append_assoc]

theorem length_draft :
    state.mtp_draft.length = config.mDraftLength := by
  rw [all.mtp_draft, length_map, length_range]

theorem verified_all_iff :
    (verified config state).1 = roundSize config ↔ Accepts config context number := by
  have iff := @draftVerify_all_iff config.target (context ++
        config.target.tokens context (number * roundSize config + 1))
      state.mtp_draft 1
  have size : 1 + state.mtp_draft.length = roundSize config := by
    rw [all.length_draft, roundSize, Nat.add_comm]
  rw [size] at iff
  rw [verified, all.text]
  refine iff.trans ?_
  rw [all.length_draft, all.mtp_draft, map_eq_tokens_iff]
  simp only [← Target.token_add]
  constructor
  · rintro ⟨same, goesOn⟩ i less
    exact ⟨same i less, goesOn i less⟩
  · intro accepts
    exact ⟨fun i less => (accepts i less).1, fun i less => (accepts i less).2⟩

/-- How many drafts are accepted, and how the draft cache is counted. -/
theorem round_mtpMeta :
    (state.round config).mMtpMeta =
        { previous :=
            mtpPrevious + seq_len + number * roundSize config + (verified config state).1
          remove := roundSize config - (verified config state).1 } ∧
      (state.round config).len = number * roundSize config + (verified config state).1 := by
  rcases @draftVerify_le config.target
        (state.rows.take (state.mMeta.previous - state.mMeta.remove) ++
          [state.current_token]) state.mtp_draft 1 with
    ⟨least, most⟩
  rw [all.length_draft] at most
  have drafts : (state.current_token :: state.mtp_draft).length = roundSize config := by
    rw [length_cons, all.length_draft, roundSize]
  have added : (((state.current_token :: state.mtp_draft).take (verified config state).1).drop 1 ++
            [(verified config state).2.1]).length =
        (verified config state).1 := by
    rw [length_append, length_drop, length_take, drafts, length_singleton, roundSize, verified]
    omega
  constructor
  · have isMeta :
        (state.round config).mMtpMeta =
          { ({ state.mMtpMeta with
                add := (((state.current_token :: state.mtp_draft).take
                        (verified config state).1).drop 1 ++
                      [(verified config state).2.1]).length } : KVMeta).sync with
            remove := (state.current_token :: state.mtp_draft).length -
                (verified config state).1 } :=
      rfl
    rw [isMeta, added, drafts, all.mMtpMeta]
    rfl
  · rw [← all.len]
    rfl

theorem round_of_not_accepts (refuses : ¬Accepts config context number) :
    ¬InStep mtpPrevious seq_len (state.round config) := by
  rintro ⟨removes, length⟩
  rcases all.round_mtpMeta with ⟨isMeta, isLen⟩
  rw [isMeta] at removes length
  rw [isLen] at length
  simp only [Nat.add_zero] at removes length
  apply refuses
  rw [← all.verified_all_iff]
  have most := (@draftVerify_le config.target
        (state.rows.take (state.mMeta.previous - state.mMeta.remove) ++
          [state.current_token]) state.mtp_draft 1).2
  rw [all.length_draft] at most
  have bound : (verified config state).1 ≤ roundSize config := by
    rw [roundSize, Nat.add_comm]
    exact most
  omega

section

variable (accepts : Accepts config context number)

include accepts

/-- When all drafts are accepted, a token is sampled behind them. -/
theorem verified_eq :
    verified config state = (roundSize config,
        config.target.token context ((number + 1) * roundSize config), false) := by
  have isAll := all.verified_all_iff.mpr accepts
  have last :
      (number + 1) * roundSize config = number * roundSize config + 1 + state.mtp_draft.length := by
    rw [Nat.succ_mul, all.length_draft, Nat.add_assoc, Nat.add_comm 1]
    rfl
  have size : roundSize config = 1 + state.mtp_draft.length := by
    rw [all.length_draft, roundSize, Nat.add_comm]
  have rest : (verified config state).2 = _ := draftVerify_of_all (isAll.trans size)
  rw [all.text, ← Target.token_add, ← last] at rest
  exact Prod.ext isAll rest

/-- The tokens of a round are the next ones of the target model. -/
theorem drafts_eq :
    config.target.tokens context (number * roundSize config) ++
        state.current_token :: state.mtp_draft =
      config.target.tokens context ((number + 1) * roundSize config) := by
  have isDraft :
      state.mtp_draft = config.target.tokens (context ++
            config.target.tokens context (number * roundSize config + 1))
          config.mDraftLength := by
    rw [all.mtp_draft, map_eq_tokens_iff]
    intro i less
    rw [← Target.token_add]
    exact (accepts i less).1
  have total :
      (number + 1) * roundSize config = number * roundSize config + 1 + config.mDraftLength := by
    rw [Nat.succ_mul, Nat.add_assoc, Nat.add_comm 1]
    rfl
  rw [total, Target.tokens_add, ← isDraft, Target.tokens_succ,
    ← all.current_token, append_assoc, singleton_append]

theorem round_of_accepts :
    InStep mtpPrevious seq_len (state.round config) ∧ (config.target.is_stop
            (config.target.token context ((number + 1) * roundSize config)) =
          false →
        AllAccepted config context mtpPrevious seq_len (number + 1) (state.round config)) ∧
      (config.target.is_stop (config.target.token context ((number + 1) * roundSize config)) =
          true →
        (state.round config).finished = true ∧ (state.round config).output_tokens =
            config.target.tokens context ((number + 1) * roundSize config + 1)) := by
  have isVerified := all.verified_eq accepts
  rcases all.round_mtpMeta with ⟨isMeta, isLen⟩
  rw [isVerified] at isMeta isLen
  simp only [Nat.sub_self] at isMeta
  have total : number * roundSize config + roundSize config = (number + 1) * roundSize config :=
    (Nat.succ_mul _ _).symm
  have drafts : (state.current_token :: state.mtp_draft).length = roundSize config := by
    rw [length_cons, all.length_draft, roundSize]
  have taken :
      (state.current_token :: state.mtp_draft).take (verified config state).1 =
        state.current_token :: state.mtp_draft := by
    rw [isVerified, ← drafts, take_length]
  have isOutput :
      (state.round config).output_tokens =
        let output_tokens :=
          state.output_tokens ++ (state.current_token :: state.mtp_draft).take
              (verified config state).1
        if ((verified config state).2.2 ||
              config.target.is_stop (verified config state).2.1) = true then
          output_tokens ++ [(verified config state).2.1]
        else
          output_tokens :=
    rfl
  have isFinished : (state.round config).finished = ((verified config state).2.2 ||
          config.target.is_stop (verified config state).2.1) :=
    rfl
  rw [taken, isVerified, all.output_tokens, all.drafts_eq accepts] at isOutput
  rw [isVerified] at isFinished
  simp only [Bool.false_or] at isOutput isFinished
  refine ⟨?_, ?_, ?_⟩
  · constructor
    · rw [isMeta]
      exact Nat.zero_le _
    · rw [isMeta, isLen]
      simp only [Nat.add_zero, Nat.sub_zero]
      ring
  · intro notStop
    rw [notStop] at isFinished
    rw [notStop, if_neg Bool.false_ne_true] at isOutput
    constructor
    · have isRows :
          (state.round config).rows = state.rows.take (state.mMeta.previous - state.mMeta.remove) ++
              state.current_token :: state.mtp_draft :=
        rfl
      have isMain :
          (state.round config).mMeta =
            { ({ state.mMeta with
                  add := (state.current_token :: state.mtp_draft).length } :
                KVMeta).sync with
              remove := (state.current_token :: state.mtp_draft).length -
                  (verified config state).1 } :=
        rfl
      have none : (state.current_token :: state.mtp_draft).length -
              (verified config state).1 = 0 := by
        rw [drafts, isVerified]
        exact Nat.sub_self _
      rw [none] at isMain
      rw [isRows, isMain, take_of_length_le, all.rows, append_assoc, all.drafts_eq accepts]
      rw [length_append, length_take]
      simp only [KVMeta.sync, Nat.sub_zero]
      omega
    · rw [isMeta, Nat.add_assoc, total]
    · show state.calls + 1 = number + 1 + 1
      rw [all.calls]
    · show (verified config state).2.1 = _
      rw [isVerified]
    · show (List.range config.mDraftLength).map (config.mtpSample state.calls) = _
      rw [all.calls]
    · rw [isLen, total]
    · exact isOutput
    · exact isFinished
  · intro isStop
    rw [isStop] at isFinished
    rw [isStop, if_pos rfl] at isOutput
    exact ⟨isFinished, isOutput⟩

end

end

end AllAccepted

/-! ## All rounds -/

theorem roundSize_pos (config : MtpConfig) : 0 < roundSize config := Nat.succ_pos _

theorem emitted_cons (state : MtpState) (states : List MtpState) :
    emitted (state :: states) =
      if states = [] then state.output_tokens else emitted states := by
  cases states with
  | nil => rfl
  | cons next rest =>
    rw [if_neg (cons_ne_nil _ _)]
    unfold emitted
    rw [getLast?_cons_cons]

/-- The rounds from one on up to another accept all drafts and go on. -/
structure Continues
    (config : MtpConfig) (context : List Int) (first last : Nat) : Prop where
  order : first < last
  accepts : ∀ number, first ≤ number → number < last → Accepts config context number
  goesOn : ∀ number, first < number → number < last → config.target.is_stop
          (config.target.token context (number * roundSize config)) = false

/-- Why the loop is left behind some rounds, and what was emitted then. -/
def Ends (config : MtpConfig) (context : List Int) (max_token last : Nat)
    (output : List Int) : Prop :=
  (max_token ≤ last * roundSize config ∧ config.target.is_stop
          (config.target.token context (last * roundSize config)) = false ∧
      output = config.target.tokens context (last * roundSize config)) ∨
    (config.target.is_stop (config.target.token context (last * roundSize config)) = true ∧
      output = config.target.tokens context (last * roundSize config + 1))

variable {max_token fuel number last : Nat}

theorem rounds_of_finished (finished : state.finished = true) :
    rounds config max_token fuel state = [] := by
  cases fuel with
  | zero => rfl
  | succ fuel =>
    unfold rounds
    rw [if_neg]
    rintro ⟨-, notFinished⟩
    rw [finished] at notFinished
    nomatch notFinished

theorem rounds_of_le (enough : max_token ≤ state.len) :
    rounds config max_token fuel state = [] := by
  cases fuel with
  | zero => rfl
  | succ fuel =>
    unfold rounds
    rw [if_neg]
    rintro ⟨less, -⟩
    exact absurd enough (Nat.not_le_of_lt less)

section

variable (all : AllAccepted config context mtpPrevious seq_len number state)

include all

/-- Behind a round in which all drafts are accepted the loop goes on, or is left. -/
theorem AllAccepted.rounds_succ (less : number * roundSize config < max_token)
    (enough : max_token ≤ number * roundSize config + (fuel + 1))
    (accepts : Accepts config context number) :
    (∀ next ∈ rounds config max_token (fuel + 1) state, InStep mtpPrevious seq_len next ∨
        next ∈ rounds config max_token fuel (state.round config)) ∧
      (Ends config context max_token (number + 1) (emitted (rounds config max_token (fuel + 1)
          state)) ∧ rounds config max_token fuel (state.round config) = [] ∨
        AllAccepted config context mtpPrevious seq_len (number + 1) (state.round config) ∧
          (number + 1) * roundSize config < max_token ∧ config.target.is_stop
              (config.target.token context ((number + 1) * roundSize config)) = false ∧
          max_token ≤ (number + 1) * roundSize config + fuel ∧
          emitted (rounds config max_token (fuel + 1) state) =
            emitted (rounds config max_token fuel (state.round config))) := by
  rcases all.round_of_accepts accepts with ⟨inStep, onward, stops⟩
  have runs : rounds config max_token (fuel + 1) state =
      state.round config :: rounds config max_token fuel (state.round config) :=
    if_pos ⟨all.len ▸ less, all.finished⟩
  rw [runs, emitted_cons]
  refine ⟨fun next member => (mem_cons.mp member).imp_left (by rintro rfl; exact inStep), ?_⟩
  cases isStop : config.target.is_stop
        (config.target.token context ((number + 1) * roundSize config)) with
  | true =>
    rcases stops isStop with ⟨finished, isOutput⟩
    have noMore := @rounds_of_finished config _ max_token fuel finished
    rw [if_pos noMore]
    exact Or.inl ⟨Or.inr ⟨isStop, isOutput⟩, noMore⟩
  | false =>
    have allNext := onward isStop
    rcases Nat.lt_or_ge ((number + 1) * roundSize config) max_token with more | atEnd
    · have size : (number + 1) * roundSize config =
          number * roundSize config + roundSize config := Nat.succ_mul ..
      have positive := roundSize_pos config
      have some_left : rounds config max_token fuel (state.round config) ≠ [] := by
        cases fuel with
        | zero => omega
        | succ fuel =>
          unfold rounds
          rw [if_pos ⟨allNext.len ▸ more, allNext.finished⟩]
          exact cons_ne_nil _ _
      rw [if_neg some_left]
      exact Or.inr ⟨allNext, more, rfl, by omega, rfl⟩
    · have noMore := @rounds_of_le config _ max_token fuel (allNext.len ▸ atEnd)
      rw [if_pos noMore]
      exact Or.inl ⟨Or.inl ⟨atEnd, isStop, allNext.output_tokens⟩, noMore⟩

/-- If the caches are in step, all drafts are accepted until the loop is left. -/
theorem continues_of_inStep (less : number * roundSize config < max_token)
    (enough : max_token ≤ number * roundSize config + fuel)
    (inStep : ∀ next ∈ rounds config max_token fuel state, InStep mtpPrevious seq_len next) :
    ∃ last, Continues config context number last ∧ Ends config context max_token last
        (emitted (rounds config max_token fuel state)) := by
  induction fuel generalizing state number with
  | zero => exact absurd enough (Nat.not_le_of_lt less)
  | succ fuel ih =>
    have runs : rounds config max_token (fuel + 1) state =
        state.round config :: rounds config max_token fuel (state.round config) :=
      if_pos ⟨all.len ▸ less, all.finished⟩
    have accepts : Accepts config context number := by
      by_contra refuses
      exact all.round_of_not_accepts refuses (inStep _ (runs ▸ mem_cons_self))
    rcases (all.rounds_succ less enough accepts).2 with
      ⟨ends, -⟩ | ⟨allNext, more, isStop, enough, same⟩
    · refine ⟨number + 1, ⟨Nat.lt_succ_self number, ?_, ?_⟩, ends⟩
      · intro other least most
        rwa [Nat.le_antisymm (Nat.le_of_lt_succ most) least]
      · exact fun other least most => absurd least (Nat.not_lt_of_le (Nat.le_of_lt_succ most))
    · rcases ih allNext more enough fun next member =>
          inStep next (runs ▸ mem_cons_of_mem _ member) with ⟨last, later, ends⟩
      refine ⟨last, ⟨Nat.lt_of_succ_lt later.order, ?_, ?_⟩, same ▸ ends⟩
      · intro other least most
        rcases Nat.lt_or_eq_of_le least with behind | rfl
        · exact later.accepts other behind most
        · exact accepts
      · intro other least most
        rcases Nat.lt_or_eq_of_le (Nat.succ_le_of_lt least) with behind | rfl
        · exact later.goesOn other behind most
        · exact isStop

/-- If all drafts are accepted, the caches are in step until the loop is left. -/
theorem inStep_of_continues (continues : Continues config context number last)
    (before : ∀ other < last, other * roundSize config < max_token)
    (leaves : max_token ≤ last * roundSize config ∨ config.target.is_stop
            (config.target.token context (last * roundSize config)) = true)
    (enough : max_token ≤ number * roundSize config + fuel) :
    (∀ next ∈ rounds config max_token fuel state, InStep mtpPrevious seq_len next) ∧
      Ends config context max_token last (emitted (rounds config max_token fuel state)) := by
  induction fuel generalizing state number with
  | zero =>
    exact absurd enough (Nat.not_le_of_lt (before number continues.order))
  | succ fuel ih =>
    rcases all.rounds_succ (before number continues.order) enough
      (continues.accepts number (Nat.le_refl _) continues.order) with ⟨inStep, cases⟩
    rcases Nat.lt_or_eq_of_le (Nat.succ_le_of_lt continues.order) with more | rfl
    · rcases cases with ⟨ends, -⟩ | ⟨allNext, -, -, enough, same⟩
      · rcases ends with ⟨atEnd, -⟩ | ⟨isStop, -⟩
        · exact absurd atEnd (Nat.not_le_of_lt (before _ more))
        · rw [continues.goesOn _ (Nat.lt_succ_self _) more] at isStop
          nomatch isStop
      · have later : Continues config context (number + 1) last :=
          ⟨more, fun other least => continues.accepts other (Nat.le_of_succ_le least),
            fun other least => continues.goesOn other (Nat.lt_of_succ_lt least)⟩
        rcases ih allNext later enough with ⟨inStepLater, ends⟩
        exact ⟨fun next member => (inStep next member).elim id (inStepLater next), same ▸ ends⟩
    · rcases cases with ⟨ends, noMore⟩ | ⟨-, more, isStop, -⟩
      · rw [noMore] at inStep
        exact ⟨fun next member => (inStep next member).resolve_right not_mem_nil, ends⟩
      · rcases leaves with atEnd | impossible
        · exact absurd atEnd (Nat.not_le_of_lt more)
        · rw [isStop] at impossible
          nomatch impossible

end

/-- All that is emitted is behind the token that was there at first. -/
theorem emitted_rounds_head {first : Int} (begins :
      state.output_tokens.head? = some first ∨
        state.output_tokens = [] ∧ state.current_token = first)
    (runs : rounds config max_token fuel state ≠ []) :
    (emitted (rounds config max_token fuel state)).head? = some first := by
  induction fuel generalizing state with
  | zero => exact absurd rfl runs
  | succ fuel ih =>
    unfold rounds at runs ⊢
    split at runs
    · next goesOn =>
      rw [if_pos goesOn, emitted_cons]
      have least := (@draftVerify_le config.target
          (state.rows.take (state.mMeta.previous - state.mMeta.remove) ++
            [state.current_token]) state.mtp_draft 1).1
      have isTaken : (state.current_token :: state.mtp_draft).take (verified config state).1 =
            state.current_token :: state.mtp_draft.take ((verified config state).1 - 1) := by
        rw [take_cons]
        exact least
      have isNext : (state.round config).output_tokens.head? = some first := by
        have grows : state.output_tokens ++ (state.current_token :: state.mtp_draft).take
                  (verified config state).1 <+:
              (state.round config).output_tokens := by
          unfold round
          simp only
          split
          · exact prefix_append ..
          · exact prefix_refl _
        rcases grows with ⟨rest, isOutput⟩
        rw [← isOutput, isTaken]
        rcases begins with started | ⟨empty, isFirst⟩
        · cases isStarted : state.output_tokens with
          | nil => rw [isStarted] at started; nomatch started
          | cons token tokens =>
            rw [isStarted] at started
            exact started
        · rw [empty, isFirst]
          rfl
      by_cases noMore : rounds config max_token fuel (state.round config) = []
      · rw [if_pos noMore]
        exact isNext
      · rw [if_neg noMore]
        exact ih (Or.inl isNext) noMore
    · exact absurd rfl runs

/-- The state before the loop, when the current token is the right one. -/
theorem allAccepted_start (config : MtpConfig) (context : List Int) (mtpPrevious seq_len : Nat) :
    AllAccepted config context mtpPrevious seq_len 0 (start config context mtpPrevious seq_len
        (config.target.token context 0)) := by
  have none : 0 * roundSize config = 0 := Nat.zero_mul _
  constructor
  · rw [none]
    show context.take (context.length - 0) = context ++ []
    rw [Nat.sub_zero, take_length, append_nil]
  · rw [none]
    rfl
  · rfl
  · rw [none]
    rfl
  · rfl
  · rw [none]
    rfl
  · rw [none]
    rfl
  · rfl

theorem Continues.not_stop (continues : Continues config context 0 last) {i : Nat}
    (positive : 0 < i) (less : i < last * roundSize config) :
    config.target.is_stop (config.target.token context i) = false := by
  have size := roundSize_pos config
  have parts := Nat.div_add_mod' i (roundSize config)
  have inLast : i / roundSize config < last := (Nat.div_lt_iff_lt_mul size).mpr less
  have low := Nat.mod_lt i size
  cases isLow : i % roundSize config with
  | zero =>
    rw [isLow, Nat.add_zero] at parts
    have behind : 0 < i / roundSize config := by
      by_contra none
      rw [Nat.eq_zero_of_not_pos none, Nat.zero_mul] at parts
      omega
    rw [← parts]
    exact continues.goesOn _ behind inLast
  | succ j =>
    rw [isLow] at parts low
    have accepted := continues.accepts _ (Nat.zero_le _) inLast j (Nat.lt_of_succ_lt_succ low)
    rw [← parts, Nat.add_comm j, ← Nat.add_assoc]
    exact accepted.2

/--
After each round the draft cache is in step and removes only rows that are
there, and in the end the emitted tokens are those of `ArGeneration`, exactly
if the drafts of all rounds are accepted, the loop ends with the round that
comes to the limit or to a stop token, and the current token was sampled before.
-/
theorem generate_inStep_iff (config : MtpConfig) (context : List Int) (mtpPrevious seq_len : Nat)
    (current_token : Int) (max_token : Nat) :
    ((∀ state ∈ generate config context mtpPrevious seq_len current_token max_token,
        InStep mtpPrevious seq_len state) ∧
      emitted (generate config context mtpPrevious seq_len current_token max_token) =
        config.target.arGenerate context max_token) ↔
      max_token = 0 ∨ current_token = config.target.token context 0 ∧ (1 < max_token →
            config.target.is_stop current_token = false) ∧
          ∃ last, Continues config context 0 last ∧ ((last * roundSize config = max_token ∧
                config.target.is_stop (config.target.token context max_token) = false) ∨
              (last * roundSize config < max_token ∧ config.target.is_stop
                    (config.target.token context (last * roundSize config)) = true)) := by
  have size := roundSize_pos config
  cases max_token with
  | zero =>
    refine iff_of_true ⟨?_, rfl⟩ (Or.inl rfl)
    exact fun _ impossible => absurd impossible not_mem_nil
  | succ budget =>
    rw [or_iff_right (Nat.succ_ne_zero budget)]
    have some_tokens : 0 * roundSize config < budget + 1 := by
      rw [Nat.zero_mul]
      exact Nat.succ_pos budget
    have enough : budget + 1 ≤ 0 * roundSize config + (budget + 1) := Nat.le_add_left ..
    constructor
    · rintro ⟨inStep, sameTokens⟩
      have isFirst : current_token = config.target.token context 0 := by
        have head := @emitted_rounds_head config
            (start config context mtpPrevious seq_len current_token)
            (budget + 1) (budget + 1) current_token (Or.inr ⟨rfl, rfl⟩)
            (by
              unfold rounds
              rw [if_pos ⟨Nat.succ_pos budget, rfl⟩]
              exact cons_ne_nil _ _)
        have isSample : (config.target.sample context : Int) = config.target.token context 0 := by
          rw [Target.token, Target.tokens, append_nil]
        rw [← isSample]
        unfold generate at sameTokens
        rw [sameTokens, Target.arGenerate] at head
        exact (Option.some.inj head).symm
      subst isFirst
      rcases continues_of_inStep (allAccepted_start config context mtpPrevious seq_len) some_tokens
            enough inStep with
        ⟨last, continues, ends⟩
      have positive : 0 < last * roundSize config := Nat.mul_pos continues.order size
      rw [generate] at sameTokens
      rw [sameTokens] at ends
      refine ⟨rfl, ?_, last, continues, ?_⟩
      · intro some_more
        rcases ends with ⟨atEnd, -, isTokens⟩ | ⟨-, isTokens⟩
        · rcases (Target.tokens_eq_arGenerate_iff ..).mp isTokens.symm with
            ⟨-, goesOn, -⟩
          exact goesOn 0 (by omega)
        · rcases (Target.tokens_eq_arGenerate_iff ..).mp isTokens.symm with
            ⟨-, goesOn, -⟩
          exact goesOn 0 (by omega)
      · rcases ends with ⟨atEnd, notStop, isTokens⟩ | ⟨isStop, isTokens⟩
        · rcases (Target.tokens_eq_arGenerate_iff ..).mp isTokens.symm with
            ⟨inBudget, -, -⟩
          have same := Nat.le_antisymm inBudget atEnd
          exact Or.inl ⟨same, same ▸ notStop⟩
        · rcases (Target.tokens_eq_arGenerate_iff ..).mp isTokens.symm with
            ⟨inBudget, -, -⟩
          exact Or.inr ⟨inBudget, isStop⟩
    · rintro ⟨rfl, firstGoesOn, last, continues, leaves⟩
      have atMost : last * roundSize config ≤ budget + 1 := by
        rcases leaves with ⟨same, -⟩ | ⟨less, -⟩
        · exact Nat.le_of_eq same
        · exact Nat.le_of_lt less
      have before : ∀ other < last, other * roundSize config < budget + 1 := by
        intro other less
        exact Nat.lt_of_lt_of_le (Nat.mul_lt_mul_of_pos_right less size) atMost
      have reason : budget + 1 ≤ last * roundSize config ∨ config.target.is_stop
                (config.target.token context (last * roundSize config)) =
              true := by
        rcases leaves with ⟨same, -⟩ | ⟨-, isStop⟩
        · exact Or.inl (Nat.le_of_eq same.symm)
        · exact Or.inr isStop
      rcases inStep_of_continues (allAccepted_start config context mtpPrevious seq_len) continues
            before reason enough with
        ⟨inStep, ends⟩
      refine ⟨inStep, ?_⟩
      have goesOn :
          ∀ i < last * roundSize config, (i = 0 → 0 < budget) →
            config.target.is_stop (config.target.token context i) = false := by
        intro i less notOnly
        rcases Nat.eq_zero_or_pos i with rfl | positive
        · exact firstGoesOn (Nat.succ_lt_succ (notOnly rfl))
        · exact continues.not_stop positive less
      unfold generate
      rcases ends with ⟨atEnd, -, isTokens⟩ | ⟨isStop, isTokens⟩
      · rw [isTokens, Target.tokens_eq_arGenerate_iff]
        refine ⟨atMost, ?_, Or.inl (Nat.le_antisymm atMost atEnd)⟩
        intro i less
        exact goesOn i (by omega) (by omega)
      · have notFull : last * roundSize config < budget + 1 := by
          rcases leaves with ⟨same, notStop⟩ | ⟨less, -⟩
          · rw [same, notStop] at isStop
            cases isStop
          · exact less
        rw [isTokens, Target.tokens_eq_arGenerate_iff]
        refine ⟨notFull, ?_, Or.inr ⟨_, rfl, isStop⟩⟩
        intro i less
        exact goesOn i (by omega) (by omega)

/-- A refused draft's row is removed although it was never added. -/
theorem generate_not_inStep :
    ¬∀ (config : MtpConfig) (context : List Int) (mtpPrevious seq_len : Nat)
        (current_token : Int) (max_token : Nat),
      (∀ state ∈ generate config context mtpPrevious seq_len current_token max_token,
          InStep mtpPrevious seq_len state) ∧
        emitted (generate config context mtpPrevious seq_len current_token max_token) =
          config.target.arGenerate context max_token := by
  intro always
  let config : MtpConfig :=
    { target := { sample := fun _ => 1, is_stop := fun _ => false }
      mDraftLength := 1
      mtpSample := fun _ _ => 2 }
  have inStep := (always config [5] 0 1 1 1).1
  have length := (inStep _ (mem_singleton_self _)).length
  exact absurd length (by decide)

end MtpState

end Mnn.Llm
