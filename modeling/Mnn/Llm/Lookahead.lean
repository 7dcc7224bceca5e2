import Mathlib

/-!
# The n-grams of lookahead decoding

Two caches tell which tokens followed a key of tokens: how often each did, or all in order.
`generate` counts the prompt, and in every round some more tokens.  A key stands for the array
which pads it with -1.
-/

namespace Mnn.Llm.Lookahead

open List
open Function

abbrev ngram_cache (Value : Type) := List Nat → Value

/-- The values of a cache.  Lists of followers are alike if they change no value differently. -/
structure ValueType (Value : Type) where
  /-- The value of a key which is not in the cache. -/
  absent : Value
  add : Value → Nat → Value
  Alike : List Nat → List Nat → Prop
  alike_iff : ∀ before first second : List Nat,
    (before ++ first).foldl add absent = (before ++ second).foldl add absent ↔ Alike first second

theorem foldl_count (value : Nat → Nat) (followers : List Nat) :
    followers.foldl (fun value token => update value token (value token + 1)) value =
      fun token => value token + followers.count token := by
  induction followers generalizing value with
  | nil => rfl
  | cons first followers ih =>
    rw [foldl_cons, ih]
    funext token
    rcases eq_or_ne token first with rfl | differs
    · rw [update_self, count_cons_self]
      omega
    · rw [update_of_ne differs, count_cons_of_ne differs.symm]

/-- How often each token followed. -/
def ngram_value : ValueType (Nat → Nat) where
  absent _ := 0
  add value token := update value token (value token + 1)
  Alike := Perm
  alike_iff before first second := by
    rw [foldl_count, foldl_count, perm_iff_count, funext_iff]
    simp only [count_append, Nat.zero_add, Nat.add_left_cancel_iff]

theorem foldl_snoc (value followers : List Nat) :
    followers.foldl (fun value token => value ++ [token]) value = value ++ followers := by
  induction followers generalizing value with
  | nil => exact (append_nil _).symm
  | cons first followers ih => rw [foldl_cons, ih, append_assoc, singleton_append]

/-- The tokens which followed, in order. -/
def ngram_ordered_value : ValueType (List Nat) where
  absent := []
  add value token := value ++ [token]
  Alike := Eq
  alike_iff before first second := by
    rw [foldl_snoc, foldl_snoc, nil_append, nil_append, append_cancel_left_eq]

variable {Value : Type} (type : ValueType Value)

def ngram_add (data : ngram_cache Value) (ngram : List Nat) (token : Nat) : ngram_cache Value :=
  update data ngram (type.add (data ngram) token)

/-- The key of a size in front of a place. -/
def keyBefore (tokens : List Nat) (size i : Nat) : List Nat := (tokens.drop (i - size)).take size

/-- The inner loop of the update. -/
def updateSize (tokens : List Nat) (new_count : Nat) (data : ngram_cache Value) (size : Nat) :
    ngram_cache Value :=
  let pos_start := max (tokens.length - new_count) size
  (range' pos_start (tokens.length - pos_start)).foldl
    (fun data i => ngram_add type data (keyBefore tokens size i) (tokens.getD i 0)) data

def ngram_cache_update (data : ngram_cache Value) (ngram_key_max : Nat) (tokens : List Nat)
    (new_count : Nat) : ngram_cache Value :=
  (range' 1 ngram_key_max).foldl (updateSize type tokens new_count) data

/-- The tokens which follow a key, at the places from `start` on before `stop`. -/
def followers (tokens key : List Nat) (start stop : Nat) : List Nat :=
  ((range' start (stop - start)).filter fun i =>
    decide (key.length ≤ i) && decide (keyBefore tokens key.length i = key)).map (tokens.getD · 0)

/-- The cache holds what follows each key in the history. -/
def Matches (ngram_key_max : Nat) (history : List Nat) (data : ngram_cache Value) : Prop :=
  ∀ key : List Nat, 1 ≤ key.length → key.length ≤ ngram_key_max →
    data key = (followers history key 0 history.length).foldl type.add type.absent

/-! ## Rounds -/

/-- What a round meets: the drafts which the search adds, and the samples behind each. -/
structure Round where
  found : List Nat
  predict : Nat → Nat
  /-- The status, the time or the forward ends the generation. -/
  interrupted : Bool

/--
`draftVerify` on the drafts from `i_dft` on: how many are accepted, the next token, and `stop`.
-/
def draftVerify (is_stop : Nat → Bool) (predict : Nat → Nat) : List Nat → Nat → Nat × Nat × Bool
  | [], i_dft => (i_dft, predict i_dft, false)
  | draft :: drafts, i_dft =>
    if is_stop (predict i_dft) then (i_dft, predict i_dft, true)
    else if predict i_dft ≠ draft then (i_dft, predict i_dft, false)
    else draftVerify is_stop predict drafts (i_dft + 1)

structure State (Value : Type) where
  current_token : Nat
  history_tokens : List Nat
  cache : ngram_cache Value

variable (is_stop : Nat → Bool) (mNgramKeyMaxLen : Nat)

namespace Round

variable (round : Round) (state : State Value)

def drafts : List Nat := state.current_token :: round.found

def verified : Nat × Nat × Bool := draftVerify is_stop round.predict (round.drafts state).tail 1

/-- The generation ends with the round's last token. -/
def stops : Bool := (round.verified is_stop state).2.2 || is_stop (round.verified is_stop state).2.1

/-- The tokens which the round appends to the history. -/
def appended : List Nat :=
  (round.drafts state).take (round.verified is_stop state).1 ++
    if round.stops is_stop state then [(round.verified is_stop state).2.1] else []

/-- How many tokens the round counts. -/
def new_count : Nat :=
  if (round.verified is_stop state).2.2 then 0 else (round.verified is_stop state).1

/-- A round, with `mUpdateNgram` on. -/
def next : State Value where
  current_token := (round.verified is_stop state).2.1
  history_tokens := state.history_tokens ++ round.appended is_stop state
  cache :=
    if (round.verified is_stop state).2.2 then state.cache
    else
      ngram_cache_update type state.cache mNgramKeyMaxLen state.history_tokens
        (round.verified is_stop state).1

/-- The tokens counted follow the same keys as the tokens appended. -/
def Repeats : Prop := ∀ key : List Nat, 1 ≤ key.length → key.length ≤ mNgramKeyMaxLen → type.Alike
      (followers state.history_tokens key
        (state.history_tokens.length - round.new_count is_stop state) state.history_tokens.length)
      (followers (state.history_tokens ++ round.appended is_stop state) key
        state.history_tokens.length
        (state.history_tokens ++ round.appended is_stop state).length)

end Round

/-- The rounds of `generate`, each with the state in front of it. -/
def rounds (max_token : Nat) : List Round → Nat → State Value → List (Round × State Value)
  | [], _, _ => []
  | round :: rest, len, state =>
    if max_token ≤ len ∨ round.interrupted then []
    else
      (round, state) ::
        if round.stops is_stop state then []
        else rounds max_token rest (len + (round.verified is_stop state).1)
          (round.next type is_stop mNgramKeyMaxLen state)

/-- The state in which `generate` enters its rounds. -/
def start (current_token : Nat) (history_tokens : List Nat) : State Value :=
  ⟨current_token, history_tokens,
    ngram_cache_update type (fun _ => type.absent) mNgramKeyMaxLen history_tokens
      history_tokens.length⟩

/-! ## The update -/

variable {type is_stop mNgramKeyMaxLen}

theorem length_keyBefore {tokens : List Nat} {size i : Nat} (le : size ≤ i) (less : i < tokens.length) :
    (keyBefore tokens size i).length = size := by
  rw [keyBefore, length_take, length_drop]
  omega

theorem foldl_add (places : List Nat) (keys : Nat → List Nat) (tokenAt : Nat → Nat)
    (data : ngram_cache Value) (key : List Nat) :
    places.foldl (fun data i => ngram_add type data (keys i) (tokenAt i)) data key =
      ((places.filter fun i => decide (keys i = key)).map tokenAt).foldl type.add (data key) := by
  induction places generalizing data with
  | nil => rfl
  | cons i places ih =>
    rw [foldl_cons, ih]
    by_cases same : keys i = key
    · rw [filter_cons_of_pos (by simpa using same), map_cons, foldl_cons, ngram_add, same,
        update_self]
    · rw [filter_cons_of_neg (by simpa using same), ngram_add, update_of_ne (Ne.symm same)]

theorem filter_range'_max (keep : Nat → Bool) (start low stop : Nat) :
    (range' start (stop - start)).filter (fun i => decide (low ≤ i) && keep i) =
      (range' (max start low) (stop - max start low)).filter keep := by
  rcases Nat.le_total low start with le | le
  · rw [max_eq_left le]
    refine filter_congr fun i member => ?_
    rw [decide_eq_true (le.trans (mem_range'_1.mp member).1), Bool.true_and]
  · rw [max_eq_right le]
    rcases Nat.le_total low stop with inside | outside
    · rw [show stop - start = (low - start) + (stop - low) by omega, ← range'_append_1,
        Nat.add_sub_cancel' le, filter_append, filter_eq_nil_iff.mpr, nil_append]
      · refine filter_congr fun i member => ?_
        rw [decide_eq_true (mem_range'_1.mp member).1, Bool.true_and]
      · intro i member
        rw [mem_range'_1] at member
        rw [decide_eq_false (by omega), Bool.false_and]
        exact Bool.false_ne_true
    · rw [Nat.sub_eq_zero_of_le outside, range'_zero, filter_nil, filter_eq_nil_iff]
      intro i member
      rw [mem_range'_1] at member
      rw [decide_eq_false (by omega), Bool.false_and]
      exact Bool.false_ne_true

theorem updateSize_apply (tokens : List Nat) (new_count size : Nat) (data : ngram_cache Value)
    (key : List Nat) :
    updateSize type tokens new_count data size key =
      if key.length = size then
        (followers tokens key (tokens.length - new_count) tokens.length).foldl type.add (data key)
      else data key := by
  rw [updateSize, foldl_add]
  split
  next same =>
    subst same
    rw [followers, filter_range'_max]
  next differs =>
    rw [filter_eq_nil_iff.mpr, map_nil, foldl_nil]
    intro i member same
    rw [mem_range'_1] at member
    rw [decide_eq_true_iff] at same
    exact differs (by rw [← same, length_keyBefore (by omega) (by omega)])

theorem ngram_cache_update_apply (data : ngram_cache Value) (ngram_key_max : Nat)
    (tokens : List Nat) (new_count : Nat) (key : List Nat) :
    ngram_cache_update type data ngram_key_max tokens new_count key =
      if 1 ≤ key.length ∧ key.length ≤ ngram_key_max then
        (followers tokens key (tokens.length - new_count) tokens.length).foldl type.add (data key)
      else data key := by
  rw [ngram_cache_update]
  induction ngram_key_max with
  | zero => rw [if_neg (by omega)]; rfl
  | succ sizes ih =>
    rw [range'_1_concat, foldl_append, foldl_cons, foldl_nil, updateSize_apply, ih]
    split_ifs <;> first | rfl | omega

theorem followers_append (history more key : List Nat) :
    followers (history ++ more) key 0 (history ++ more).length =
      followers history key 0 history.length ++
        followers (history ++ more) key history.length (history ++ more).length := by
  rw [followers, followers, followers, Nat.sub_zero, Nat.sub_zero, length_append,
    Nat.add_sub_cancel_left, ← range'_append_1, filter_append, map_append, Nat.zero_add]
  congr 1
  have early : ∀ i < history.length, keyBefore (history ++ more) key.length i =
      keyBefore history key.length i ∨ ¬key.length ≤ i := by
    intro i less
    by_cases le : key.length ≤ i
    · left
      rw [keyBefore, keyBefore, drop_append_of_le_length (by omega),
        take_append_of_le_length (by rw [length_drop]; omega)]
    · exact Or.inr le
  have filtered : ((range' 0 history.length).filter fun i => decide (key.length ≤ i) &&
      decide (keyBefore (history ++ more) key.length i = key)) =
      (range' 0 history.length).filter fun i => decide (key.length ≤ i) &&
        decide (keyBefore history key.length i = key) := by
    refine filter_congr fun i member => ?_
    rcases early i (by have := (mem_range'_1.mp member).2; omega) with same | short
    · rw [same]
    · rw [decide_eq_false short, Bool.false_and, Bool.false_and]
  rw [filtered]
  refine map_congr_left fun i member => ?_
  have less := (mem_range'_1.mp (mem_filter.mp member).1).2
  rw [getD_eq_getElem?_getD, getD_eq_getElem?_getD, getElem?_append_left (by omega)]

theorem matches_start (current_token : Nat) (history_tokens : List Nat) :
    Matches type mNgramKeyMaxLen history_tokens
      (start type mNgramKeyMaxLen current_token history_tokens).cache := by
  intro key some atMost
  simp only [start]
  rw [ngram_cache_update_apply, if_pos ⟨some, atMost⟩, Nat.sub_self]

/-- Behind a history which the cache matches, a round is right exactly if it repeats. -/
theorem Round.matches_next_iff (round : Round) {state : State Value}
    (isMatch : Matches type mNgramKeyMaxLen state.history_tokens state.cache) :
    Matches type mNgramKeyMaxLen (round.next type is_stop mNgramKeyMaxLen state).history_tokens
        (round.next type is_stop mNgramKeyMaxLen state).cache ↔
      round.Repeats type is_stop mNgramKeyMaxLen state := by
  refine forall_congr' fun key => forall_congr' fun some => forall_congr' fun atMost => ?_
  have counted : (round.next type is_stop mNgramKeyMaxLen state).cache key =
      (followers state.history_tokens key 0 state.history_tokens.length ++
        followers state.history_tokens key
          (state.history_tokens.length - round.new_count is_stop state)
          state.history_tokens.length).foldl type.add type.absent := by
    rw [foldl_append, ← isMatch key some atMost, next, new_count]
    split
    next => rw [Nat.sub_zero, followers, Nat.sub_self, range'_zero, filter_nil, map_nil, foldl_nil]
    next => exact (ngram_cache_update_apply ..).trans (if_pos ⟨some, atMost⟩)
  rw [counted, ← type.alike_iff, next, followers_append]

/-- The caches match the history after every round exactly if every round repeats. -/
theorem matches_iff_repeats (max_token : Nat) (inputs : List Round) (len : Nat)
    {state : State Value}
    (isMatch : Matches type mNgramKeyMaxLen state.history_tokens state.cache) :
    (∀ step ∈ rounds type is_stop mNgramKeyMaxLen max_token inputs len state,
        Matches type mNgramKeyMaxLen
          (step.1.next type is_stop mNgramKeyMaxLen step.2).history_tokens
          (step.1.next type is_stop mNgramKeyMaxLen step.2).cache) ↔
      ∀ step ∈ rounds type is_stop mNgramKeyMaxLen max_token inputs len state,
        step.1.Repeats type is_stop mNgramKeyMaxLen step.2 := by
  induction inputs generalizing len state with
  | nil => exact iff_of_true nofun nofun
  | cons round inputs ih =>
    rw [rounds]
    split
    next => exact iff_of_true nofun nofun
    next =>
      rw [forall_mem_cons, forall_mem_cons, round.matches_next_iff isMatch]
      refine and_congr_right fun repeats => ?_
      split
      next => exact iff_of_true nofun nofun
      next => exact ih _ ((round.matches_next_iff isMatch).mpr repeats)

/--
With either rule the cache holds what follows each key in the history, after every round,
exactly if in every round the tokens which are counted (the last of the history in front of it)
follow the same keys as those which are appended.
-/
theorem generate_matches_iff (is_stop : Nat → Bool) (mNgramKeyMaxLen current_token max_token : Nat)
    (history_tokens : List Nat) (inputs : List Round) :
    ((∀ step ∈ rounds ngram_value is_stop mNgramKeyMaxLen max_token inputs 0
          (start ngram_value mNgramKeyMaxLen current_token history_tokens),
        ∀ key : List Nat, 1 ≤ key.length → key.length ≤ mNgramKeyMaxLen → ∀ token,
          (step.1.next ngram_value is_stop mNgramKeyMaxLen step.2).cache key token =
            (followers (step.2.history_tokens ++ step.1.appended is_stop step.2) key 0
              (step.2.history_tokens ++ step.1.appended is_stop step.2).length).count token) ↔
      ∀ step ∈ rounds ngram_value is_stop mNgramKeyMaxLen max_token inputs 0
          (start ngram_value mNgramKeyMaxLen current_token history_tokens),
        step.1.Repeats ngram_value is_stop mNgramKeyMaxLen step.2) ∧
    ((∀ step ∈ rounds ngram_ordered_value is_stop mNgramKeyMaxLen max_token inputs 0
          (start ngram_ordered_value mNgramKeyMaxLen current_token history_tokens),
        ∀ key : List Nat, 1 ≤ key.length → key.length ≤ mNgramKeyMaxLen →
          (step.1.next ngram_ordered_value is_stop mNgramKeyMaxLen step.2).cache key =
            followers (step.2.history_tokens ++ step.1.appended is_stop step.2) key 0
              (step.2.history_tokens ++ step.1.appended is_stop step.2).length) ↔
      ∀ step ∈ rounds ngram_ordered_value is_stop mNgramKeyMaxLen max_token inputs 0
          (start ngram_ordered_value mNgramKeyMaxLen current_token history_tokens),
        step.1.Repeats ngram_ordered_value is_stop mNgramKeyMaxLen step.2) := by
  constructor
  · rw [← matches_iff_repeats max_token inputs 0 (matches_start current_token history_tokens)]
    simp only [Matches, ngram_value, foldl_count, Nat.zero_add, funext_iff]
    rfl
  · rw [← matches_iff_repeats max_token inputs 0 (matches_start current_token history_tokens)]
    simp only [Matches, ngram_ordered_value, foldl_snoc, nil_append]
    rfl

/-- The first round behind the prompt 1, 2 accepts 3, and does not count that 3 follows 2. -/
theorem not_generate_matches :
    ¬∀ step ∈ rounds ngram_ordered_value (fun _ => false) 1 4 [⟨[], fun _ => 5, false⟩] 0
        (start ngram_ordered_value 1 3 [1, 2]),
      ∀ key : List Nat, 1 ≤ key.length → key.length ≤ 1 →
        (step.1.next ngram_ordered_value (fun _ => false) 1 step.2).cache key =
          followers (step.2.history_tokens ++ step.1.appended (fun _ => false) step.2) key 0
            (step.2.history_tokens ++ step.1.appended (fun _ => false) step.2).length := by
  intro always
  exact absurd (always _ mem_cons_self [2] le_rfl le_rfl) (by decide)

end Mnn.Llm.Lookahead
