import Mnn.Foundation.Runs
import Mnn.Llm.PromptCache

/-!
# What the turns of a chat find in the KV cache

Behind a turn the KV cache has the tokens of the whole prompt and those whose
rows were added by the generation.  The next turn cuts its own tokens off at the
cached text.  So these two have to be the same.
-/

variable {state : ChatState} {turn : Turn}

namespace Mnn.Llm

open Mnn.Core
open Mnn.Foundation.Runs
open List
open Nat

/-! ## Where the tokens are cut off -/

theorem textCommon_le (cached compare : Text) : textCommon cached compare ≤ cached.length := by
  induction cached generalizing compare with
  | nil => exact Nat.le_refl 0
  | cons c cached ih =>
    cases compare with
    | nil => exact zero_le _
    | cons c' compare =>
      unfold textCommon
      split
      · exact succ_le_succ (ih compare)
      · exact zero_le _

theorem le_textCommon_iff (cached compare : Text) :
    cached.length ≤ textCommon cached compare ↔ cached <+: compare := by
  induction cached generalizing compare with
  | nil =>
    constructor
    · exact fun _ => nil_prefix
    · exact fun _ => zero_le _
  | cons c cached ih =>
    cases compare with
    | nil =>
      constructor
      · exact fun impossible => absurd impossible (not_succ_le_zero _)
      · exact fun isPrefix => nomatch prefix_nil.mp isPrefix
    | cons c' compare =>
      unfold textCommon
      rw [cons_prefix_cons, ← ih, length_cons]
      by_cases same : c = c'
      · rw [if_pos same, Nat.add_le_add_iff_right]
        constructor
        · exact fun le => ⟨same, le⟩
        · exact fun both => both.2
      · rw [if_neg same]
        constructor
        · exact fun impossible => absurd impossible (not_succ_le_zero _)
        · exact fun both => absurd both.1 same

namespace Tokenizer

variable (tokenizer : Tokenizer)

def length (tokens : List Int) : Nat := (tokens.flatMap tokenizer.tokenizer_decode).length

@[simp]
theorem length_nil : tokenizer.length [] = 0 :=
  rfl

@[simp]
theorem length_cons (token : Int) (tokens : List Int) :
    tokenizer.length (token :: tokens) =
      (tokenizer.tokenizer_decode token).length + tokenizer.length tokens := by
  unfold length
  rw [flatMap_cons, length_append]

theorem splitLoop_eq_iff (text_common : Nat) (tokens : List Int) (char_pos count : Nat)
    (fits : char_pos ≤ text_common) :
    tokenizer.splitLoop text_common tokens char_pos = count ↔ count ≤ tokens.length ∧
        char_pos + tokenizer.length (tokens.take count) ≤ text_common ∧ (count < tokens.length →
            text_common < char_pos + tokenizer.length (tokens.take (count + 1))) := by
  induction tokens generalizing char_pos count with
  | nil =>
    simp only [splitLoop, List.length_nil, take_nil, length_nil,
      add_zero, le_zero, not_lt_zero, false_implies, and_true]
    constructor
    · exact fun isZero => ⟨isZero.symm, fits⟩
    · exact fun both => both.1.symm
  | cons token rest ih =>
    unfold splitLoop
    simp only
    by_cases tooLong : char_pos + (tokenizer.tokenizer_decode token).length > text_common
    · rw [if_pos tooLong]
      cases count with
      | zero =>
        refine iff_of_true rfl ⟨zero_le _, fits, fun _ => ?_⟩
        rw [take_succ_cons, take_zero, length_cons, length_nil]
        exact tooLong
      | succ count =>
        refine iff_of_false (succ_ne_zero count).symm ?_
        rintro ⟨-, fitsAll, -⟩
        rw [take_succ_cons, length_cons] at fitsAll
        omega
    · rw [if_neg tooLong]
      cases count with
      | zero =>
        refine iff_of_false (succ_ne_zero _) ?_
        rintro ⟨-, -, tooLong'⟩
        have tooLong' := tooLong' (zero_lt_succ _)
        rw [take_succ_cons, take_zero, length_cons, length_nil] at tooLong'
        exact tooLong tooLong'
      | succ count =>
        rw [Nat.add_right_cancel_iff, ih _ _ (Nat.le_of_not_lt tooLong), take_succ_cons,
          take_succ_cons, length_cons, length_cons, List.length_cons,
          Nat.add_le_add_iff_right, Nat.add_lt_add_iff_right,
          add_assoc, add_assoc]

/-- The number of characters of the tokens behind the prefix tokens. -/
def textLength (tokens : List Int) : Nat := tokenizer.length (tokens.drop tokenizer.prefix_count)

/--
Some tokens are those in front of `token_split` exactly if the text begins with
them, they fit into the common text, and with the next token they do not.
-/
theorem take_token_split_iff (full_tokens tokens : List Int) (text_common : Nat) :
    (tokenizer.token_split full_tokens text_common ≤ full_tokens.length ∧ tokens =
          full_tokens.take (tokenizer.token_split full_tokens text_common)) ↔
      tokens <+: full_tokens ∧ tokenizer.prefix_count ≤ tokens.length ∧
        tokenizer.textLength tokens ≤ text_common ∧ ∀ token, tokens ++ [token] <+: full_tokens →
            text_common < tokenizer.textLength (tokens ++ [token]) := by
  generalize isSplit : tokenizer.token_split full_tokens text_common = place
  have cut :
      (place ≤ full_tokens.length ∧ tokens = full_tokens.take place) ↔
        tokens <+: full_tokens ∧ place = tokens.length := by
    constructor
    · rintro ⟨inside, rfl⟩
      refine ⟨ take_prefix _ _, ?_⟩
      rw [length_take, Nat.min_eq_left inside]
    · rintro ⟨isPrefix, rfl⟩
      exact ⟨isPrefix.length_le, prefix_iff_eq_take.mp isPrefix⟩
  rw [cut]
  refine and_congr_right fun isPrefix => ?_
  have inside := isPrefix.length_le
  have isTaken := prefix_iff_eq_take.mp isPrefix
  have taken (count : Nat) : (full_tokens.drop tokenizer.prefix_count).take
          (count - tokenizer.prefix_count) =
        (full_tokens.take count).drop tokenizer.prefix_count :=
    (drop_take ..).symm
  have next :
      (∀ token, tokens ++ [token] <+: full_tokens →
          text_common < tokenizer.textLength (tokens ++ [token])) ↔
        (tokens.length < full_tokens.length → text_common <
            tokenizer.textLength (full_tokens.take (tokens.length + 1))) := by
    constructor
    · intro tooLong less
      have isNext :
          full_tokens.take (tokens.length + 1) = tokens ++ [full_tokens[tokens.length]] := by
        rw [take_add_one, ← isTaken, getElem?_eq_getElem less]
        rfl
      rw [isNext]
      refine tooLong _ ?_
      rw [← isNext]
      exact take_prefix _ _
    · intro tooLong token isNext
      have less := isNext.length_le
      have isTaken' := prefix_iff_eq_take.mp isNext
      rw [length_append, length_singleton] at less isTaken'
      rw [isTaken']
      exact tooLong less
  rw [next, ← isSplit, token_split]
  by_cases behind : tokenizer.prefix_count ≤ tokens.length
  · have counted : tokenizer.prefix_count + tokenizer.splitLoop text_common
                (full_tokens.drop tokenizer.prefix_count) 0 =
            tokens.length ↔
          tokenizer.splitLoop text_common (full_tokens.drop tokenizer.prefix_count) 0 =
            tokens.length - tokenizer.prefix_count := by
      omega
    rw [counted, splitLoop_eq_iff _ _ _ _ _ (zero_le _),
      ← Nat.sub_add_comm behind, taken, taken, ← isTaken, length_drop,
      zero_add, zero_add]
    have rest :
        tokens.length - tokenizer.prefix_count < full_tokens.length - tokenizer.prefix_count ↔
          tokens.length < full_tokens.length := by
      omega
    rw [rest]
    have inRest :
        tokens.length - tokenizer.prefix_count ≤ full_tokens.length - tokenizer.prefix_count :=
      Nat.sub_le_sub_right inside _
    constructor
    · exact fun told => ⟨behind, told.2.1, told.2.2⟩
    · exact fun told => ⟨inRest, told.2.1, told.2.2⟩
  · refine iff_of_false ?_ fun told => behind told.1
    intro isSum
    exact behind (isSum ▸ Nat.le_add_right ..)

end Tokenizer

/-! ## Forwards -/

theorem flatten_chunks (mBlockSize : Nat) (input_ids : List Int) :
    (chunks mBlockSize input_ids).flatten = input_ids := by
  unfold chunks
  by_cases isOne : mBlockSize = 0 ∨ input_ids.length ≤ mBlockSize
  · rw [if_pos isOne, flatten_singleton]
  · rw [if_neg isOne]
    have taken (count : Nat) : ((List.range count).map fun i =>
            (input_ids.drop (i * mBlockSize)).take mBlockSize).flatten =
          input_ids.take (count * mBlockSize) := by
      induction count with
      | zero => rw [Nat.zero_mul, take_zero, range_zero]; rfl
      | succ count ih =>
        rw [range_succ, map_append, flatten_append, ih,
          map_singleton, flatten_singleton, succ_mul,
          take_add]
    have enough : input_ids.length ≤ upDiv input_ids.length mBlockSize * mBlockSize :=
      le_roundUp (by omega)
    rw [taken, take_of_length_le enough]

theorem chunks_ne_nil (mBlockSize : Nat) (input_ids : List Int) :
    chunks mBlockSize input_ids ≠ [] := by
  intro isEmpty
  have noTokens : input_ids = [] := by
    rw [← flatten_chunks mBlockSize input_ids, isEmpty, flatten_nil]
  rw [noTokens] at isEmpty
  unfold chunks at isEmpty
  rw [length_nil, if_pos (Or.inr (zero_le _))] at isEmpty
  nomatch isEmpty

namespace ChatState

/-- The rows are counted, and no range of them is reserved. -/
structure Stored (state : ChatState) : Prop where
  previous : state.mMeta.previous = state.rows.length
  reserve : state.mMeta.reserve = []

section

variable {state : ChatState} (stored : state.Stored)

include stored

theorem forward_spec (input_ids : List Int) :
    (state.forward input_ids).Stored ∧ (state.forward input_ids).rows = state.kept ++ input_ids ∧
        (state.forward input_ids).kept = state.kept ++ input_ids := by
  have count : (state.forward input_ids).mMeta.previous = (state.kept ++ input_ids).length := by
    simp only [forward, KVMeta.sync, stored.reserve, map_nil,
      sum_nil, add_zero, length_append, kept, length_take,
      stored.previous]
    omega
  refine ⟨⟨count, rfl⟩, rfl, ?_⟩
  show (state.kept ++ input_ids).take ((state.forward input_ids).mMeta.previous - 0) = _
  rw [count, Nat.sub_zero, take_length]

/-- The forwards of a prefill add their rows to those that are kept. -/
theorem foldl_forward_spec (first : List Int) (rest : List (List Int)) :
    ((first :: rest).foldl forward state).Stored ∧
      ((first :: rest).foldl forward state).rows =
        state.kept ++ (first :: rest).flatten ∧
        ((first :: rest).foldl forward state).all_seq_len =
          state.all_seq_len + (first :: rest).flatten.length ∧
          ((first :: rest).foldl forward state).history_tokens =
            state.history_tokens := by
  induction rest generalizing first state with
  | nil =>
    obtain ⟨next, rows, -⟩ := forward_spec stored first
    rw [flatten_singleton]
    exact ⟨next, rows, rfl, rfl⟩
  | cons second rest ih =>
    obtain ⟨next, -, keeps⟩ := forward_spec stored first
    obtain ⟨last, rows, count, history⟩ := ih next second
    refine ⟨last, ?_, ?_, history⟩
    · rw [foldl_cons, rows, keeps, flatten_cons (l := first), append_assoc]
    · rw [foldl_cons, count, flatten_cons (l := first), length_append, ← add_assoc]
      rfl

theorem foldl_chunks_spec (mBlockSize : Nat) (input_ids : List Int) :
    ((chunks mBlockSize input_ids).foldl forward state).Stored ∧
      ((chunks mBlockSize input_ids).foldl forward state).rows =
        state.kept ++ input_ids ∧
        ((chunks mBlockSize input_ids).foldl forward state).all_seq_len =
          state.all_seq_len + input_ids.length ∧
          ((chunks mBlockSize input_ids).foldl forward state).history_tokens =
            state.history_tokens := by
  have flat := flatten_chunks mBlockSize input_ids
  cases parts : chunks mBlockSize input_ids with
  | nil => exact absurd parts (chunks_ne_nil mBlockSize input_ids)
  | cons first rest =>
    have spec := foldl_forward_spec stored first rest
    rw [parts] at flat
    rw [flat] at spec
    exact spec

end

variable (config : ChatConfig)

/-- Behind `generate` the rows are those before, the given and the generated. -/
theorem generate_spec (stored : state.Stored)
    (strategy : List Int → Generated) (input_ids : List Int) :
    (state.generate config strategy input_ids).Stored ∧
      (state.generate config strategy input_ids).kept = state.kept ++ input_ids ++
          (strategy (state.kept ++ input_ids)).rows ∧
        state.all_seq_len + input_ids.length ≤
          (state.generate config strategy input_ids).all_seq_len ∧
          (state.generate config strategy input_ids).history_tokens =
            state.history_tokens ++ input_ids ++
              (strategy (state.kept ++ input_ids)).history_tokens ∧
            (state.generate config strategy input_ids).running =
              (strategy (state.kept ++ input_ids)).running := by
  let pushed : ChatState :=
    { state with history_tokens := state.history_tokens ++ input_ids }
  have pushedStored : pushed.Stored := ⟨stored.previous, stored.reserve⟩
  obtain ⟨filled, rows, count, history⟩ :=
    foldl_chunks_spec pushedStored config.mBlockSize input_ids
  unfold generate
  simp only
  rw [rows, count, history, filled.previous, rows]
  refine ⟨⟨?_, rfl⟩, ?_, ?_, rfl, rfl⟩
  · simp only [length_append]
  · simp only [kept]
    rw [Nat.add_sub_cancel, ← length_append, take_left]
  · exact Nat.le_add_right ..

/-- What `response` leaves behind a prompt with these tokens. -/
structure Leaves
    (config : ChatConfig) (state : ChatState) (turn : Turn)
    (full_tokens : List Int) : Prop where
  stored : state.Stored
  kept : state.kept = full_tokens ++ (turn.strategy full_tokens).rows
  counted : 0 < state.all_seq_len
  cached : state.mCachedPromptText = config.tokenizer.cachedText turn.chat_prompts
        (turn.strategy full_tokens).history_tokens
  running : state.running = (turn.strategy full_tokens).running

theorem generate_leaves (stored : state.Stored) (turn : Turn) (input_ids : List Int)
    (positive : 0 < state.all_seq_len + input_ids.length) :
    Leaves config ((state.generate config turn.strategy input_ids).updateCachedPromptText
        config turn.chat_prompts (state.history_tokens.length + input_ids.length))
      turn (state.kept ++ input_ids) := by
  obtain ⟨next, rows, count, history, running⟩ :=
    generate_spec config stored turn.strategy input_ids
  constructor
  · exact ⟨next.previous, next.reserve⟩
  · exact rows
  · exact Nat.lt_of_lt_of_le positive count
  · show config.tokenizer.cachedText turn.chat_prompts (List.drop _ _) = _
    rw [history, ← length_append, drop_left]
  · exact running

/-- Nothing is kept by the next forward. -/
structure Cleared (state : ChatState) : Prop where
  stored : state.Stored
  kept : state.kept = []
  history_tokens : state.history_tokens = []

theorem kept_removeAll (all : state.mMeta.remove = state.mMeta.previous) : state.kept = [] := by
  rw [ChatState.kept, all, Nat.sub_self, take_zero]

theorem Stored.cleared (stored : state.Stored) : state.clear.Cleared where
  stored := ⟨stored.previous, stored.reserve⟩
  kept := kept_removeAll rfl
  history_tokens := rfl

theorem Cleared.generate_init (cleared : state.Cleared) :
    (state.generate_init config).Cleared := by
  unfold ChatState.generate_init
  by_cases reuses : config.reuse_kv = true
  · rw [if_neg (not_not_intro reuses)]
    exact ⟨⟨cleared.stored.previous, cleared.stored.reserve⟩, cleared.kept, cleared.history_tokens⟩
  · rw [if_pos reuses]
    exact ⟨⟨cleared.stored.previous, cleared.stored.reserve⟩, kept_removeAll rfl, rfl⟩

theorem Cleared.prefill_leaves (cleared : state.Cleared)
    (notEmpty : config.tokenizer.fullTokens turn.chat_prompts ≠ []) :
    Leaves config (state.prefill config turn) turn
      (config.tokenizer.fullTokens turn.chat_prompts) := by
  have init := cleared.generate_init config
  have some := length_pos_iff.mpr notEmpty
  have leaves := generate_leaves config init.stored turn
      (config.tokenizer.fullTokens turn.chat_prompts)
      (Nat.lt_of_lt_of_le some (Nat.le_add_left ..))
  rw [init.kept, init.history_tokens, length_nil, zero_add, nil_append] at leaves
  unfold prefill responseIds
  simp only
  rw [if_neg (by rwa [List.isEmpty_iff])]
  exact leaves

/-- Without tokens there is an error, and no further turn runs. -/
theorem prefill_fails (state : ChatState)
    (isEmpty : config.tokenizer.fullTokens turn.chat_prompts = []) :
    (state.prefill config turn).running = false := by
  unfold prefill responseIds
  simp only
  rw [isEmpty]
  rfl

theorem prefillDelta_leaves (stored : state.Stored) (sees :
      state.kept ++ state.delta config turn = config.tokenizer.fullTokens turn.chat_prompts)
    (counted : 0 < state.all_seq_len) :
    Leaves config (state.prefillDelta config turn) turn
      (config.tokenizer.fullTokens turn.chat_prompts) := by
  let restored : ChatState :=
    { state.generate_init config with
      mMeta := state.mMeta
      all_seq_len := state.all_seq_len
      history_tokens := state.history_tokens }
  have sameRows : (state.generate_init config).rows = state.rows := by
    unfold ChatState.generate_init
    split
    · rfl
    · rfl
  have restoredStored : restored.Stored :=
    ⟨stored.previous.trans (congrArg List.length sameRows.symm), stored.reserve⟩
  have restoredKept : restored.kept = state.kept := by
    unfold ChatState.kept
    rw [show restored.rows = state.rows from sameRows]
  have leaves := generate_leaves config restoredStored turn (state.delta config turn)
      (Nat.lt_of_lt_of_le counted (Nat.le_add_right ..))
  rw [restoredKept, sees] at leaves
  exact leaves

end ChatState

/-! ## Chats -/

/-- The model, and the last turn that it ran. -/
structure Chat where
  state : ChatState := {}
  last : Option Turn := none

namespace Chat

variable (config : ChatConfig)

def respond (chat : Chat) (turn : Turn) : Chat where
  state := chat.state.response config turn
  last :=
    if chat.state.running = true ∧ turn.chat_prompts ≠ [] then
      some turn
    else
      chat.last

end Chat

/-- What is generated when the strategy is given the whole prompt. -/
def Turn.generated (tokenizer : Tokenizer) (turn : Turn) : Generated :=
  turn.strategy (tokenizer.fullTokens turn.chat_prompts)

/-- The model goes on behind the turn. -/
def Turn.Runs (tokenizer : Tokenizer) (turn : Turn) : Prop :=
  tokenizer.fullTokens turn.chat_prompts ≠ [] ∧ (turn.generated tokenizer).running = true

/-- The text that is cached behind the turn. -/
def Turn.cached (tokenizer : Tokenizer) (turn : Turn) : Text :=
  tokenizer.cachedText turn.chat_prompts (turn.generated tokenizer).history_tokens

/--
The tokens of a turn begin with those of the last prompt and those that were
generated behind it and have rows, and these are exactly the tokens that fit into
the cached text.
-/
structure Turn.Continues
    (tokenizer : Tokenizer) (last turn : Turn) (tokens : List Int) : Prop where
  isPrefix : tokens <+: tokenizer.fullTokens turn.chat_prompts
  prefixed : tokenizer.prefix_count ≤ tokens.length
  fits : tokenizer.textLength tokens ≤ (last.cached tokenizer).length
  noMore :
    ∀ token, tokens ++ [token] <+: tokenizer.fullTokens turn.chat_prompts →
      (last.cached tokenizer).length < tokenizer.textLength (tokens ++ [token])

/-- A turn whose chat begins with the cached text of the last one continues it. -/
def Chat.Follows (config : ChatConfig) (chat : Chat) (turn : Turn) : Prop :=
  ∀ last, chat.last = some last → last.Runs config.tokenizer →
    turn.chat_prompts ≠ [] → last.cached config.tokenizer ≠ [] → last.cached config.tokenizer <+:
          config.tokenizer.apply_chat_template turn.chat_prompts false →
        last.Continues config.tokenizer turn (config.tokenizer.fullTokens last.chat_prompts ++
            (last.generated config.tokenizer).rows)

namespace Chat

variable {config : ChatConfig}

/-- The KV cache and the cached text are those of the last turn. -/
structure InStep (config : ChatConfig) (chat : Chat) : Prop where
  fresh : chat.last = none → chat.state = {}
  runs : ∀ last, chat.last = some last → (chat.state.running = true ↔ last.Runs config.tokenizer)
  leaves : ∀ last, chat.last = some last → chat.state.running = true → chat.state.Leaves config last
        (config.tokenizer.fullTokens last.chat_prompts)

/-- Where the cached text is in the chat, the tokens have to continue. -/
theorem sees_iff_continues {last : Turn} (leaves : state.Leaves config last
        (config.tokenizer.fullTokens last.chat_prompts))
    (isPrefix : last.cached config.tokenizer <+:
        config.tokenizer.apply_chat_template turn.chat_prompts false) :
    (state.split config turn ≤ (config.tokenizer.fullTokens turn.chat_prompts).length ∧
        state.kept ++ state.delta config turn = config.tokenizer.fullTokens turn.chat_prompts) ↔
      last.Continues config.tokenizer turn (config.tokenizer.fullTokens last.chat_prompts ++
          (last.generated config.tokenizer).rows) := by
  have cached : state.mCachedPromptText = last.cached config.tokenizer := leaves.cached
  have kept :
      state.kept = config.tokenizer.fullTokens last.chat_prompts ++
          (last.generated config.tokenizer).rows :=
    leaves.kept
  have common : state.text_common config turn = (last.cached config.tokenizer).length := by
    unfold ChatState.text_common
    rw [cached]
    exact Nat.le_antisymm (textCommon_le _ _) ((le_textCommon_iff _ _).mpr isPrefix)
  have cutOff :
      state.kept ++ state.delta config turn = config.tokenizer.fullTokens turn.chat_prompts ↔
        state.kept = (config.tokenizer.fullTokens turn.chat_prompts).take
            (state.split config turn) := by
    have parts := take_append_drop (state.split config turn)
        (config.tokenizer.fullTokens turn.chat_prompts)
    constructor
    · intro whole
      exact append_cancel_right (whole.trans parts.symm)
    · intro same
      rw [same]
      exact parts
  rw [cutOff, kept]
  unfold ChatState.split
  rw [common, Tokenizer.take_token_split_iff]
  constructor
  · rintro ⟨isPrefix, prefixed, fits, noMore⟩
    exact ⟨isPrefix, prefixed, fits, noMore⟩
  · rintro ⟨isPrefix, prefixed, fits, noMore⟩
    exact ⟨isPrefix, prefixed, fits, noMore⟩

section

variable {chat : Chat} (inStep : chat.InStep config)

include inStep

/-- The cached prefix shows what there is exactly if the turn continues. -/
theorem InStep.seesContext_iff (turn : Turn) :
    chat.state.SeesContext config turn ↔ chat.Follows config turn := by
  constructor
  · intro sees last isLast runs notEmpty isCached isPrefix
    have running := (inStep.runs last isLast).mpr runs
    have leaves := inStep.leaves last isLast running
    have cached : chat.state.mCachedPromptText = last.cached config.tokenizer := leaves.cached
    refine (sees_iff_continues leaves isPrefix).mp (sees ?_)
    refine ⟨running, notEmpty, ?_, ?_⟩
    · rw [cached]
      exact isCached
    · unfold ChatState.text_common
      rw [cached]
      exact (le_textCommon_iff _ _).mpr isPrefix
  · rintro follows ⟨running, notEmpty, isCached, isCommon⟩
    cases isLast : chat.last with
    | none =>
      rw [inStep.fresh isLast] at isCached
      exact absurd rfl isCached
    | some last =>
      have leaves := inStep.leaves last isLast running
      have cached : chat.state.mCachedPromptText = last.cached config.tokenizer := leaves.cached
      unfold ChatState.text_common at isCommon
      rw [cached] at isCommon isCached
      have isPrefix := (le_textCommon_iff _ _).mp isCommon
      exact (sees_iff_continues leaves isPrefix).mpr
          (follows last isLast ((inStep.runs last isLast).mp running) notEmpty isCached isPrefix)

theorem InStep.leaves_respond (sees : chat.state.SeesContext config turn)
    (running : chat.state.running = true) (notEmpty : turn.chat_prompts ≠ []) :
    (chat.state.response config turn).Leaves config turn
        (config.tokenizer.fullTokens turn.chat_prompts) ∧
      config.tokenizer.fullTokens turn.chat_prompts ≠ [] ∨
    (chat.state.response config turn).running = false ∧
      config.tokenizer.fullTokens turn.chat_prompts = [] := by
  have prefill {state : ChatState} (cleared : state.Cleared) :
      (state.prefill config turn).Leaves config turn
          (config.tokenizer.fullTokens turn.chat_prompts) ∧
        config.tokenizer.fullTokens turn.chat_prompts ≠ [] ∨
      (state.prefill config turn).running = false ∧
        config.tokenizer.fullTokens turn.chat_prompts = [] := by
    by_cases noTokens : config.tokenizer.fullTokens turn.chat_prompts = []
    · exact Or.inr ⟨state.prefill_fails config noTokens, noTokens⟩
    · exact Or.inl ⟨cleared.prefill_leaves config noTokens, noTokens⟩
  have stored : chat.state.Stored := by
    cases isLast : chat.last with
    | none =>
      rw [inStep.fresh isLast]
      exact ⟨rfl, rfl⟩
    | some last => exact (inStep.leaves last isLast running).stored
  unfold ChatState.response
  rw [if_neg (by
    rintro (notRunning | isEmpty)
    · exact notRunning running
    · exact notEmpty (isEmpty_iff.mp isEmpty))]
  by_cases isCached : chat.state.mCachedPromptText ≠ []
  · rw [if_pos isCached]
    by_cases trimmed : chat.state.text_common config turn < chat.state.mCachedPromptText.length
    · rw [if_pos trimmed]
      have forgotten : { chat.state with mCachedPromptText := [] }.Stored :=
        ⟨stored.previous, stored.reserve⟩
      exact prefill forgotten.cleared
    · rw [if_neg trimmed]
      cases isLast : chat.last with
      | none =>
        rw [inStep.fresh isLast] at isCached
        exact absurd rfl isCached
      | some last =>
        have leaves := inStep.leaves last isLast running
        have whole := (sees ⟨running, notEmpty, isCached, Nat.le_of_not_lt trimmed⟩).2
        left
        constructor
        · exact ChatState.prefillDelta_leaves config stored whole leaves.counted
        · intro noTokens
          rw [noTokens, leaves.kept] at whole
          have noPrompt := (append_eq_nil_iff.mp (append_eq_nil_iff.mp whole).1).1
          exact ((inStep.runs last isLast).mp running).1 noPrompt
  · rw [if_neg isCached]
    by_cases counted : chat.state.all_seq_len > 0
    · rw [if_pos counted]
      exact prefill stored.cleared
    · rw [if_neg counted]
      cases isLast : chat.last with
      | none =>
        rw [inStep.fresh isLast]
        exact prefill ⟨⟨rfl, rfl⟩, rfl, rfl⟩
      | some last =>
        exact absurd (inStep.leaves last isLast running).counted counted

theorem InStep.respond (sees : chat.state.SeesContext config turn) :
    (chat.respond config turn).InStep config := by
  by_cases answers : chat.state.running = true ∧ turn.chat_prompts ≠ []
  · have isLast : (chat.respond config turn).last = some turn := if_pos answers
    have result := inStep.leaves_respond sees answers.1 answers.2
    constructor
    · intro noLast
      rw [isLast] at noLast
      nomatch noLast
    · intro last isLast'
      obtain rfl : turn = last := Option.some.inj (isLast.symm.trans isLast')
      rcases result with ⟨leaves, notEmpty⟩ | ⟨failed, noTokens⟩
      · show (chat.state.response config turn).running = true ↔ _
        rw [leaves.running]
        exact ⟨fun running => ⟨notEmpty, running⟩, fun runs => runs.2⟩
      · show (chat.state.response config turn).running = true ↔ _
        rw [failed]
        exact iff_of_false Bool.false_ne_true fun runs => runs.1 noTokens
    · intro last isLast' running
      obtain rfl : turn = last := Option.some.inj (isLast.symm.trans isLast')
      rcases result with ⟨leaves, -⟩ | ⟨failed, -⟩
      · exact leaves
      · exact absurd (failed.symm.trans running) Bool.false_ne_true
  · have same : chat.respond config turn = chat := by
      have noAnswer : chat.state.response config turn = chat.state := by
        unfold ChatState.response
        rw [if_pos]
        rw [List.isEmpty_iff]
        by_contra both
        rw [not_or, not_not] at both
        exact answers both
      unfold Chat.respond
      rw [noAnswer, if_neg answers]
    rw [same]
    exact inStep

end

/--
Whenever a turn reuses the cached prefix, the tokens in the KV cache and those
given behind them are the tokens of the whole prompt, exactly if each turn whose
chat begins with the cached text continues the last one.
-/
theorem seesContext_iff_follows (config : ChatConfig) (turns : List Turn) :
    EachAllowed (Chat.respond config) (fun chat => chat.state.SeesContext config) {} turns ↔
      EachAllowed (Chat.respond config) (Chat.Follows config) {} turns := by
  have start : ({} : Chat).InStep config := by
    constructor
    · exact fun _ => rfl
    · exact fun _ impossible => nomatch impossible
    · exact fun _ impossible => nomatch impossible
  exact eachAllowed_congr (fun chat turn (inStep : chat.InStep config) =>
        inStep.seesContext_iff turn)
      (fun chat turn inStep sees => inStep.respond sees) start

/-- A token for each character; a message ends with a dollar, which stops. -/
def characters : Tokenizer where
  tokenizer_encode text := text.map fun c => (c.toNat : Int)
  tokenizer_decode token := [Char.ofNat token.toNat]
  is_stop token := token == '$'.toNat
  apply_chat_template chat_prompts add_generation_prompt := (chat_prompts.flatMap fun message =>
      message.1.take 1 ++ message.2 ++ ['$']) ++
      if add_generation_prompt then ['a'] else []

/-- The token that stops the answer is not in the KV cache. -/
theorem not_seesContext :
    ¬∀ (config : ChatConfig) (turns : List Turn), EachAllowed (Chat.respond config)
        (fun chat => chat.state.SeesContext config) {} turns := by
  intro always
  let config : ChatConfig :=
    { tokenizer := characters, reuse_kv := false, mBlockSize := 0 }
  let sample (rows : List Int) : Int :=
    if rows.getLast? = some ('a'.toNat : Int) then 'y'.toNat else '$'.toNat
  let strategy := arGeneration sample characters.is_stop 10
  let question : Turn :=
    { chat_prompts := [("user".toList, "q".toList)], strategy := strategy }
  let thanks : Turn :=
    { chat_prompts :=
        [("user".toList, "q".toList), ("assistant".toList, "y".toList), ("user".toList, "t".toList)]
      strategy := strategy }
  have sees := always config [question, thanks] [question] thanks (prefix_refl _)
  have reuses : ((Chat.respond config {} question).state).Reuses config thanks := by
    refine ⟨rfl, nofun, ?_, ?_⟩
    · decide
    · decide
  have whole := (sees reuses).2
  exact absurd whole (by decide)

end Chat

end Mnn.Llm
