import Mnn.Core.KVMeta
import Mnn.Core.Macro

/-!
# Turns of a chat with a prompt cache

A turn renders the whole chat.  If the text that was cached behind the last turn
is a prefix of the chat, the rows in the KV cache stay and only the tokens behind
that text are given to the model.

The tokenizer and the template are parameters, and so is what a decoding strategy
does behind a prefill.  Characters stand for the bytes of a text.  Forwards are
taken to succeed.
-/

namespace Mnn.Llm

open Mnn.Core

abbrev Text := List Char

/-- The pairs of a role and a content. -/
abbrev ChatMessages := List (Text × Text)

/-! ## Think blocks -/

/-- `text.find(needle, pos)` -/
def find (text needle : Text) (pos : Nat) : Option Nat :=
  (List.range' pos (text.length + 1 - pos)).find? fun i =>
    needle.isPrefixOf (text.drop i)

/-- An iteration of `stripThinkBlocks`, unless it is left by a `break`. -/
def stripThinkBlock (text : Text) : Option Text := do
  let start ← find text "<think>".toList 0
  let stop ← find text "</think>".toList start
  some (text.take start ++ (text.drop (stop + 8)).dropWhile fun c => c == '\n' || c == '\r')

/-- The loop of `stripThinkBlocks`; each iteration makes the text shorter. -/
def stripLoop : Nat → Text → Text
  | 0, text => text
  | fuel + 1, text =>
    match stripThinkBlock text with
    | none => text
    | some text => stripLoop fuel text

def stripThinkBlocks (text : Text) : Text := stripLoop text.length text

/-! ## Tokens and texts -/

/-- What is left open by `Llm::tokenizer_encode` and by `mTokenizer`. -/
structure Tokenizer where
  tokenizer_encode : Text → List Int
  tokenizer_decode : Int → Text
  is_stop : Int → Bool
  apply_chat_template : ChatMessages → Bool → Text

namespace Tokenizer

variable (tokenizer : Tokenizer)

/-- What `updateCachedPromptText` caches behind a turn. -/
def cachedText (chat_prompts : ChatMessages) (generated : List Int) : Text :=
  let response_text :=
    (generated.filter fun tok => !tokenizer.is_stop tok).flatMap tokenizer.tokenizer_decode
  let msgs_with_response :=
    if response_text ≠ [] then
      chat_prompts ++ [("assistant".toList, response_text)]
    else
      chat_prompts
  stripThinkBlocks (tokenizer.apply_chat_template msgs_with_response false)

/-- The number of tokens which the loop for `token_split` steps over. -/
def splitLoop (text_common : Nat) : List Int → Nat → Nat
  | [], _ => 0
  | token :: rest, char_pos =>
    let piece := tokenizer.tokenizer_decode token
    if char_pos + piece.length > text_common then
      0
    else
      splitLoop text_common rest (char_pos + piece.length) + 1

/-- The tokens that are put in front of every text. -/
def prefix_count : Nat := (tokenizer.tokenizer_encode []).length

def token_split (full_tokens : List Int) (text_common : Nat) : Nat :=
  tokenizer.prefix_count +
    tokenizer.splitLoop text_common (full_tokens.drop tokenizer.prefix_count) 0

/-- The tokens of the whole prompt of a turn. -/
def fullTokens (chat_prompts : ChatMessages) : List Int :=
  tokenizer.tokenizer_encode (tokenizer.apply_chat_template chat_prompts true)

end Tokenizer

/-- The number of characters at which two texts are the same. -/
def textCommon : Text → Text → Nat
  | c :: cached, c' :: compare =>
    if c = c' then textCommon cached compare + 1 else 0
  | _, _ => 0

/-! ## Turns -/

/-- What a decoding strategy does behind a prefill. -/
structure Generated where
  /-- The tokens that it puts into `history_tokens`. -/
  history_tokens : List Int
  /-- The tokens whose rows it adds to the KV cache. -/
  rows : List Int
  /-- The drafts behind them whose rows it leaves in `mMeta->remove`. -/
  refused : List Int := []
  /-- There was no error, timeout or cancel. -/
  running : Bool := true

/--
The loop of `ArGeneration::generate`, behind these rows and with so many tokens
to come; a sample below zero is an error.
-/
def arGeneration (sample : List Int → Int) (is_stop : Int → Bool) : Nat → List Int → Generated
  | 0, _ => { history_tokens := [], rows := [] }
  | budget + 1, rows =>
    let current_token := sample rows
    if current_token < 0 then
      { history_tokens := [], rows := [], running := false }
    else if is_stop current_token then
      { history_tokens := [current_token], rows := [] }
    else
      let later :=
        arGeneration sample is_stop budget (rows ++ [current_token])
      { later with
        history_tokens := current_token :: later.history_tokens
        rows := current_token :: later.rows }

/-- A call of `response`. -/
structure Turn where
  chat_prompts : ChatMessages
  /-- What is generated, given the tokens in the KV cache. -/
  strategy : List Int → Generated

/-- The model, as far as `response` uses it. -/
structure ChatState where
  mMeta : KVMeta := {}
  /-- The tokens whose rows are in the KV cache. -/
  rows : List Int := []
  all_seq_len : Nat := 0
  history_tokens : List Int := []
  mCachedPromptText : Text := []
  /-- The status is none that `CHECK_LLM_RUNNING` refuses. -/
  running : Bool := true

/-- The tokens of each forward of a prefill. -/
def chunks (mBlockSize : Nat) (input_ids : List Int) : List (List Int) :=
  if mBlockSize = 0 ∨ input_ids.length ≤ mBlockSize then
    [input_ids]
  else
    (List.range (upDiv input_ids.length mBlockSize)).map fun i =>
      (input_ids.drop (i * mBlockSize)).take mBlockSize

structure ChatConfig where
  tokenizer : Tokenizer
  reuse_kv : Bool
  mBlockSize : Nat

namespace ChatState

/-- The tokens whose rows are kept by the next forward; no range is reserved. -/
def kept (state : ChatState) : List Int :=
  state.rows.take (state.mMeta.previous - state.mMeta.remove)

/-- A forward with `mMeta->add` set, and the update of the context. -/
def forward (state : ChatState) (input_ids : List Int) : ChatState :=
  { state with
    mMeta := { state.mMeta with add := input_ids.length }.sync
    rows := state.kept ++ input_ids
    all_seq_len := state.all_seq_len + input_ids.length }

variable (config : ChatConfig)

def generate_init (state : ChatState) : ChatState :=
  if ¬config.reuse_kv then
    { state with
      mMeta := { state.mMeta with remove := state.mMeta.previous }
      all_seq_len := 0
      history_tokens := []
      running := true }
  else
    { state with running := true }

def generate (strategy : List Int → Generated) (state : ChatState)
    (input_ids : List Int) : ChatState :=
  let state :=
    { state with history_tokens := state.history_tokens ++ input_ids }
  let state := (chunks config.mBlockSize input_ids).foldl forward state
  let generated := strategy state.rows
  { state with
    mMeta :=
      { previous :=
          state.mMeta.previous + generated.rows.length + generated.refused.length
        remove := generated.refused.length }
    rows := state.rows ++ generated.rows ++ generated.refused
    all_seq_len := state.all_seq_len + generated.rows.length
    history_tokens := state.history_tokens ++ generated.history_tokens
    running := generated.running }

/-- `response`, given the tokens. -/
def responseIds (strategy : List Int → Generated) (state : ChatState)
    (input_ids : List Int) : ChatState :=
  let state := state.generate_init config
  if input_ids.isEmpty then
    { state with running := false }
  else
    state.generate config strategy input_ids

def updateCachedPromptText
    (state : ChatState) (chat_prompts : ChatMessages) (history_before : Nat) :
    ChatState :=
  { state with
    mCachedPromptText := config.tokenizer.cachedText chat_prompts
        (state.history_tokens.drop history_before) }

/-- Nothing of the KV cache and of the history is kept. -/
def clear (state : ChatState) : ChatState :=
  { state with
    mMeta := { state.mMeta with remove := state.mMeta.previous }
    all_seq_len := 0
    history_tokens := [] }

/-- The whole prompt is given to the model. -/
def prefill (state : ChatState) (turn : Turn) : ChatState :=
  let input_ids := config.tokenizer.fullTokens turn.chat_prompts
  (state.responseIds config turn.strategy input_ids).updateCachedPromptText
    config turn.chat_prompts input_ids.length

/-- How much of the cached text is in the chat. -/
def text_common (state : ChatState) (turn : Turn) : Nat := textCommon state.mCachedPromptText
    (config.tokenizer.apply_chat_template turn.chat_prompts false)

/-- `token_split` of a turn. -/
def split (state : ChatState) (turn : Turn) : Nat := config.tokenizer.token_split
    (config.tokenizer.fullTokens turn.chat_prompts)
    (state.text_common config turn)

/-- The tokens behind the cached text. -/
def delta (state : ChatState) (turn : Turn) : List Int :=
  (config.tokenizer.fullTokens turn.chat_prompts).drop (state.split config turn)

/-- Only the tokens behind the cached text are given to the model. -/
def prefillDelta (state : ChatState) (turn : Turn) : ChatState :=
  let delta := state.delta config turn
  let state :=
    { state.generate_init config with
      mMeta := state.mMeta
      all_seq_len := state.all_seq_len
      history_tokens := state.history_tokens }
  let history_before := state.history_tokens.length + delta.length
  (state.generate config turn.strategy delta).updateCachedPromptText config
    turn.chat_prompts history_before

/-- `response`, with `prompt_cache` set. -/
def response (state : ChatState) (turn : Turn) : ChatState :=
  if ¬state.running ∨ turn.chat_prompts.isEmpty then
    state
  else if state.mCachedPromptText ≠ [] then
    if state.text_common config turn < state.mCachedPromptText.length then
      { state with mCachedPromptText := [] }.clear.prefill config turn
    else
      state.prefillDelta config turn
  else if state.all_seq_len > 0 then
    state.clear.prefill config turn
  else
    state.prefill config turn

/-- The turn reuses the cached prefix. -/
def Reuses (state : ChatState) (turn : Turn) : Prop :=
  state.running = true ∧ turn.chat_prompts ≠ [] ∧ state.mCachedPromptText ≠ [] ∧
      state.mCachedPromptText.length ≤ state.text_common config turn

/--
If the cached prefix is reused, it is cut off inside of the prompt, and the
tokens in the KV cache with those behind them are the tokens of the whole prompt.
-/
def SeesContext (state : ChatState) (turn : Turn) : Prop :=
  state.Reuses config turn → state.split config turn ≤
        (config.tokenizer.fullTokens turn.chat_prompts).length ∧
      state.kept ++ state.delta config turn = config.tokenizer.fullTokens turn.chat_prompts

end ChatState

end Mnn.Llm
