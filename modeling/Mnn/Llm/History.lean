import Mnn.Core.KVMeta
import Mnn.Foundation.Runs

/-!
# The history behind a conversation

`eraseHistory`, `reset`, `generate_init` and `setKVCacheInfo` note in the meta
data which rows of the KV cache are dropped by the next forward.  `all_seq_len`
counts the rows for the position ids and the attention mask.

Beside the code stands what the calls say: the stored rows the last of them
keeps, and whether it also says how many they are.
-/

namespace Mnn.Llm

open Mnn.Core
open Mnn.Foundation.Runs
open List

/-- The fields of `Llm` and of its context that count rows. -/
structure Llm where
  mMeta : KVMeta := {}
  all_seq_len : Nat := 0
  deriving DecidableEq, Repr

/-- What comes of an attempt to prefill the kept tokens again. -/
inductive Replay where
  /-- `replayKeptHistory` returns `false`, or is not called. -/
  | refused
  /-- The forward returns no outputs, after this many blocks. -/
  | failed (blocks : Nat)
  | done
  deriving DecidableEq, Repr

namespace Llm

def updateContext (llm : Llm) (seq_len : Nat) : Llm :=
  { llm with all_seq_len := llm.all_seq_len + seq_len }

/-- `forwardRaw` with `mMeta->add` set, when it succeeds. -/
def forwardRaw (llm : Llm) (add : Nat) : Llm :=
  { llm with mMeta := { llm.mMeta with add := add }.sync }

/-- The loop over the full blocks in `forwardVec`. -/
def forwardBlocks (llm : Llm) (mBlockSize blockNumber : Nat) : Llm := (fun llm : Llm =>
    (llm.forwardRaw mBlockSize).updateContext mBlockSize)^[blockNumber] llm

/-- `forwardVec`, when every `forwardRaw` in it succeeds. -/
def forwardVec (mBlockSize : Nat) (llm : Llm) (seq_len : Nat) : Llm :=
  if mBlockSize = 0 then
    llm.forwardRaw seq_len
  else
    let blockNumber := seq_len / mBlockSize
    let blockRemain := seq_len % mBlockSize
    let llm := llm.forwardBlocks mBlockSize blockNumber
    let llm := if blockRemain ≠ 0 then llm.forwardRaw blockRemain else llm
    { llm with all_seq_len := llm.all_seq_len - mBlockSize * blockNumber }

/-- A forward and the update of the context which its callers make. -/
def forward (mBlockSize : Nat) (llm : Llm) (seq_len : Nat) : Llm :=
  (llm.forwardVec mBlockSize seq_len).updateContext seq_len

def reset (llm : Llm) : Llm :=
  { mMeta := { llm.mMeta with remove := llm.mMeta.previous }
    all_seq_len := 0 }

def generate_init (llm : Llm) (reuse_kv : Bool) : Llm :=
  if ¬reuse_kv then
    { mMeta := { llm.mMeta with remove := llm.mMeta.previous }
      all_seq_len := 0 }
  else
    llm

/-- `replayKeptHistory`, behind the checks that may refuse it. -/
def replayKeptHistory (mBlockSize : Nat) (llm : Llm) (kept : Nat) (replay : Replay) : Llm :=
  let previous := llm.mMeta.previous
  let llm : Llm :=
    { mMeta := { llm.mMeta with remove := previous, reserve := [] }
      all_seq_len := 0 }
  match replay with
  | .failed blocks =>
    let llm := llm.forwardBlocks mBlockSize blocks
    { llm with mMeta := { llm.mMeta with remove := llm.mMeta.previous } }
  | _ => (llm.forwardVec mBlockSize kept).updateContext kept

/-- An end of zero stands for the end of the history. -/
def eraseEnd (llm : Llm) (last : Nat) : Nat :=
  if last = 0 then llm.mMeta.previous else last

def eraseHistory (mBlockSize : Nat) (llm : Llm) (first last : Nat) (replay : Replay) :
    Llm :=
  let last := llm.eraseEnd last
  if last > llm.mMeta.previous ∨ first ≥ last then
    llm
  else if (first > 0 ∨ last < llm.mMeta.previous) ∧ replay ≠ .refused then
    llm.replayKeptHistory mBlockSize (first + (llm.mMeta.previous - last)) replay
  else
    let remove := llm.mMeta.previous - first
    if last ≠ llm.mMeta.previous then
      let revertNumber := llm.mMeta.previous - last
      { mMeta :=
          { llm.mMeta with
            remove := remove
            reserve := [(last - first, revertNumber)] }
        all_seq_len := llm.mMeta.previous - remove + revertNumber }
    else
      { mMeta := { llm.mMeta with remove := remove }
        all_seq_len := llm.mMeta.previous - remove }

def setKVCacheInfo (llm : Llm) (add remove : Nat) (reserve : List (Nat × Nat)) : Llm :=
  { llm with
    mMeta :=
      { previous := llm.mMeta.previous
        remove := min remove llm.mMeta.previous
        reserve := reserve
        add := add } }

end Llm

/-! ## Sessions -/

/-- A call on the model. -/
inductive Call where
  | eraseHistory (first last : Nat) (replay : Replay)
  | reset
  | generate_init (reuse_kv : Bool)
  | setKVCacheInfo (add remove : Nat) (reserve : List (Nat × Nat))
  | forward (seq_len : ℕ+)

/-- The model, and what the calls so far say. -/
structure Session where
  llm : Llm := {}
  /-- The stored rows that the calls keep. -/
  kept : List Nat := []
  /-- The last call also says how many there are. -/
  counted : Bool := true

namespace Session

/-- The calls say which rows are kept; a later call overrides an earlier one. -/
def call (mBlockSize : Nat) (session : Session) : Call → Session
  | .eraseHistory first last replay =>
    let llm := session.llm
    let stop := llm.eraseEnd last
    let erased := llm.eraseHistory mBlockSize first last replay
    if stop > llm.mMeta.previous ∨ first ≥ stop then
      { session with llm := erased }
    else if
        (first > 0 ∨ stop < llm.mMeta.previous) ∧ replay ≠ .refused then
      -- The kept rows were made anew, or all rows are given up.
      { llm := erased
        kept :=
          if replay = .done then
            List.range (first + (llm.mMeta.previous - stop))
          else
            []
        counted := true }
    else
      { llm := erased
        kept := List.range first ++ List.range' stop (llm.mMeta.previous - stop)
        counted := true }
  | .reset => { llm := session.llm.reset, kept := [], counted := true }
  | .generate_init reuse_kv =>
    if reuse_kv then
      { session with llm := session.llm.generate_init reuse_kv }
    else
      { llm := session.llm.generate_init reuse_kv
        kept := []
        counted := true }
  | .setKVCacheInfo add remove reserve =>
    let start :=
      session.llm.mMeta.previous - min remove session.llm.mMeta.previous
    { llm := session.llm.setKVCacheInfo add remove reserve
      kept := List.range start ++ reserve.flatMap (KVMeta.rangeRows start)
      counted := false }
  | .forward seq_len =>
    { llm := session.llm.forward mBlockSize seq_len
      kept := List.range (session.kept.length + seq_len)
      counted := true }

/--
The pending edit keeps what the calls keep, `all_seq_len` is the number of
rows, and the next forward adds its rows to them.
-/
structure InStep (mBlockSize : Nat) (session : Session) : Prop where
  kept : session.llm.mMeta.keptRows = session.kept
  previous :
    ∀ seq_len : ℕ+, (session.llm.forward mBlockSize seq_len).mMeta.previous =
        session.kept.length + seq_len
  counted : session.counted = true → session.llm.all_seq_len = session.kept.length

/-- No reserved range of an earlier call is pending. -/
def NoReserve (session : Session) : Prop := ∀ range ∈ session.llm.mMeta.reserve, range.2 = 0

/-- When a call does what it should. -/
def Careful (mBlockSize : Nat) (session : Session) : Call → Prop
  | .eraseHistory first last replay =>
    let previous := session.llm.mMeta.previous
    let stop := session.llm.eraseEnd last
    first < stop ∧ stop ≤ previous →
      if (first > 0 ∨ stop < previous) ∧ replay ≠ .refused then
        ∀ blocks, replay = .failed blocks → blocks * mBlockSize = 0
      else
        stop = previous → session.NoReserve
  | .reset => session.NoReserve
  | .generate_init reuse_kv => reuse_kv = false → session.NoReserve
  | .setKVCacheInfo _ _ _ => True
  | .forward _ =>
    session.counted = false → session.llm.all_seq_len = session.kept.length

end Session

/-! ## One call -/

namespace Llm

theorem forwardRaw_keptRows (llm : Llm) (add : Nat) :
    (llm.forwardRaw add).mMeta.keptRows = List.range (llm.mMeta.keptRows.length + add) := by
  rw [forwardRaw, KVMeta.keptRows_sync, KVMeta.sync_previous]
  rfl

/-- These rows are stored, and nothing is pending. -/
def Settled (llm : Llm) (rows : Nat) : Prop :=
  llm.mMeta.previous = rows ∧ llm.mMeta.keptRows = List.range rows

theorem settled_forwardRaw (llm : Llm) (add : Nat) :
    (llm.forwardRaw add).Settled (llm.mMeta.keptRows.length + add) := by
  constructor
  · exact KVMeta.sync_previous _
  · exact forwardRaw_keptRows llm add

theorem forwardBlocks_spec (llm : Llm) (mBlockSize blockNumber : Nat) :
    (llm.forwardBlocks mBlockSize blockNumber).mMeta.keptRows.length =
        llm.mMeta.keptRows.length + mBlockSize * blockNumber ∧
      (0 < blockNumber → (llm.forwardBlocks mBlockSize blockNumber).Settled
          (llm.mMeta.keptRows.length + mBlockSize * blockNumber)) ∧
      (llm.forwardBlocks mBlockSize blockNumber).all_seq_len =
        llm.all_seq_len + mBlockSize * blockNumber := by
  unfold forwardBlocks
  induction blockNumber with
  | zero => exact ⟨rfl, fun impossible => absurd impossible (lt_irrefl 0), rfl⟩
  | succ count ih =>
    rcases ih with ⟨rows, -, counted⟩
    rw [Function.iterate_succ_apply']
    have next := settled_forwardRaw ((fun llm : Llm =>
        (llm.forwardRaw mBlockSize).updateContext mBlockSize)^[count] llm)
      mBlockSize
    rw [rows, add_assoc, ← Nat.mul_succ] at next
    refine ⟨?_, fun _ => next, ?_⟩
    · exact (congrArg List.length next.2).trans (length_range ..)
    · rw [Nat.mul_succ, ← add_assoc, ← counted]
      rfl

theorem forwardVec_spec (mBlockSize : Nat) (llm : Llm) {seq_len : Nat} (positive : 0 < seq_len) :
    (llm.forwardVec mBlockSize seq_len).Settled (llm.mMeta.keptRows.length + seq_len) ∧
      (llm.forwardVec mBlockSize seq_len).all_seq_len = llm.all_seq_len := by
  unfold forwardVec
  by_cases noBlocks : mBlockSize = 0
  · rw [if_pos noBlocks]
    exact ⟨settled_forwardRaw llm seq_len, rfl⟩
  · rw [if_neg noBlocks]
    rcases forwardBlocks_spec llm mBlockSize (seq_len / mBlockSize) with
      ⟨rows, settled, counted⟩
    have parts := Nat.div_add_mod seq_len mBlockSize
    by_cases remain : seq_len % mBlockSize = 0
    · have someBlock : 0 < seq_len / mBlockSize := by
        apply pos_of_ne_zero
        intro none
        rw [none, remain] at parts
        omega
      rw [remain, add_zero] at parts
      simp only [remain, ne_eq, not_true_eq_false, if_false, counted, Nat.add_sub_cancel, and_true]
      have last := settled someBlock
      rw [parts] at last
      exact last
    · simp only [ne_eq, remain, not_false_eq_true, if_true]
      constructor
      · have last := settled_forwardRaw (llm.forwardBlocks mBlockSize (seq_len / mBlockSize))
            (seq_len % mBlockSize)
        rw [rows, add_assoc, parts] at last
        exact last
      · show (llm.forwardBlocks mBlockSize (seq_len / mBlockSize)).all_seq_len -
            mBlockSize * (seq_len / mBlockSize) = _
        rw [counted, Nat.add_sub_cancel]

theorem forwardBlocks_reserve
    (llm : Llm) (none : llm.mMeta.reserve = []) (mBlockSize blockNumber : Nat) :
    (llm.forwardBlocks mBlockSize blockNumber).mMeta.reserve = [] := by
  unfold forwardBlocks
  cases blockNumber with
  | zero => exact none
  | succ count =>
    rw [Function.iterate_succ_apply']
    rfl

end Llm

/-- All rows are given up exactly if no reserved range is left. -/
theorem keptRows_removeAll (kvMeta : KVMeta) :
    { kvMeta with remove := kvMeta.previous }.keptRows = [] ↔
      ∀ range ∈ kvMeta.reserve, range.2 = 0 := by
  rw [← KVMeta.flatMap_rangeRows_eq_nil 0, KVMeta.keptRows]
  simp only [Nat.sub_self, range_zero, nil_append]

namespace Session

variable {mBlockSize : Nat} {session : Session}

theorem InStep.of_kept (kept : session.llm.mMeta.keptRows = session.kept) (counted :
      session.counted = true → session.llm.all_seq_len = session.kept.length) :
    session.InStep mBlockSize where
  kept := kept
  previous := by
    intro seq_len
    rw [← kept]
    exact (Llm.forwardVec_spec mBlockSize session.llm seq_len.pos).1.1
  counted := counted

theorem inStep_giveUp (kvMeta : KVMeta) : InStep mBlockSize
        { llm :=
            { mMeta := { kvMeta with remove := kvMeta.previous }
              all_seq_len := 0 }
          kept := []
          counted := true } ↔
      ∀ range ∈ kvMeta.reserve, range.2 = 0 := by
  rw [← keptRows_removeAll]
  constructor
  · exact fun inStep => inStep.kept
  · exact fun rows => .of_kept rows fun _ => rfl

theorem inStep_eraseHistory
    (inStep : session.InStep mBlockSize) (first last : Nat) (replay : Replay) :
    (session.call mBlockSize (.eraseHistory first last replay)).InStep mBlockSize ↔
      session.Careful mBlockSize (.eraseHistory first last replay) := by
  simp only [call, Careful, Llm.eraseHistory]
  generalize session.llm.eraseEnd last = stop
  by_cases invalid : stop > session.llm.mMeta.previous ∨ first ≥ stop
  · rw [if_pos invalid, if_pos invalid]
    constructor
    · exact fun _ valid => by omega
    · exact fun _ => inStep
  · rw [if_neg invalid, if_neg invalid]
    have valid : first < stop ∧ stop ≤ session.llm.mMeta.previous := by
      omega
    simp only [valid, and_self, true_implies]
    by_cases replayed : (first > 0 ∨ stop < session.llm.mMeta.previous) ∧ replay ≠ .refused
    · rw [if_pos replayed, if_pos replayed, if_pos replayed]
      cases replay with
      | refused => exact absurd rfl replayed.2
      | failed blocks =>
        let cleared : Llm :=
          { mMeta :=
              { session.llm.mMeta with
                remove := session.llm.mMeta.previous
                reserve := [] }
            all_seq_len := 0 }
        have counted := (Llm.forwardBlocks_spec cleared mBlockSize blocks).2.2
        have unreserved := cleared.forwardBlocks_reserve rfl mBlockSize blocks
        have rows := (keptRows_removeAll (cleared.forwardBlocks mBlockSize blocks).mMeta).mpr
            (by rw [unreserved]; exact fun _ member => nomatch member)
        rw [zero_add, mul_comm] at counted
        constructor
        · rintro ⟨-, -, length⟩ other isFailed
          cases isFailed
          exact counted.symm.trans (length rfl)
        · intro nothing
          exact .of_kept rows fun _ => counted.trans (nothing blocks rfl)
      | done =>
        let cleared : Llm :=
          { mMeta :=
              { session.llm.mMeta with
                remove := session.llm.mMeta.previous
                reserve := [] }
            all_seq_len := 0 }
        have positive : 0 < first + (session.llm.mMeta.previous - stop) := by
          omega
        have none : cleared.mMeta.keptRows = [] := by
          rw [show cleared.mMeta.keptRows = _ from append_nil _]
          simp only [Nat.sub_self, range_zero, cleared]
        rcases Llm.forwardVec_spec mBlockSize cleared positive with
          ⟨⟨-, rows⟩, same⟩
        rw [none, length_nil, zero_add] at rows
        constructor
        · rintro - blocks isFailed
          cases isFailed
        · intro _
          refine .of_kept rows fun _ => ?_
          simp only [if_true, length_range]
          show (cleared.forwardVec mBlockSize _).all_seq_len + _ = _
          rw [same]
          exact zero_add _
    · rw [if_neg replayed, if_neg replayed, if_neg replayed]
      have start :
          session.llm.mMeta.previous - (session.llm.mMeta.previous - first) =
            first := by
        omega
      by_cases toEnd : stop = session.llm.mMeta.previous
      · rw [if_neg (not_not_intro toEnd)]
        simp only [toEnd, true_implies, NoReserve, ← KVMeta.flatMap_rangeRows_eq_nil first]
        constructor
        · rintro ⟨rows, -, -⟩
          simp only [KVMeta.keptRows, start, Nat.sub_self, List.range'_zero] at rows
          exact append_cancel_left rows
        · intro nothing
          apply InStep.of_kept
          · simp only [KVMeta.keptRows, start, Nat.sub_self, List.range'_zero, nothing]
          · intro _
            simp only [start, Nat.sub_self, List.range'_zero, append_nil, length_range]
      · rw [if_pos toEnd]
        constructor
        · exact fun _ isEnd => absurd isEnd toEnd
        · intro _
          have next : first + (stop - first) = stop := by
            omega
          apply InStep.of_kept
          · simp only [KVMeta.keptRows, start, flatMap_cons,
              flatMap_nil, append_nil, KVMeta.rangeRows, next]
          · intro _
            simp only [start, length_append, length_range, length_range']

/-- A call leaves the session in step exactly if it is careful. -/
theorem inStep_call (inStep : session.InStep mBlockSize) (event : Call) :
    (session.call mBlockSize event).InStep mBlockSize ↔ session.Careful mBlockSize event := by
  cases event with
  | eraseHistory first last replay =>
    exact inStep_eraseHistory inStep first last replay
  | reset => exact inStep_giveUp session.llm.mMeta
  | generate_init reuse_kv =>
    cases reuse_kv with
    | true =>
      constructor
      · exact fun _ impossible => nomatch impossible
      · exact fun _ => inStep
    | false =>
      constructor
      · exact fun next _ => (inStep_giveUp session.llm.mMeta).mp next
      · exact fun careful =>
          (inStep_giveUp session.llm.mMeta).mpr (careful rfl)
  | setKVCacheInfo add remove reserve =>
    constructor
    · exact fun _ => trivial
    · exact fun _ => .of_kept rfl nofun
  | forward seq_len =>
    rcases Llm.forwardVec_spec mBlockSize session.llm seq_len.pos with
      ⟨⟨-, rows⟩, same⟩
    rw [inStep.kept] at rows
    have counted :
        (session.llm.forward mBlockSize seq_len).all_seq_len = session.llm.all_seq_len + seq_len :=
      congrArg (· + (seq_len : Nat)) same
    constructor
    · rintro ⟨-, -, length⟩ -
      have total := length rfl
      simp only [call, counted, length_range] at total
      exact add_right_cancel total
    · intro careful
      refine .of_kept rows fun _ => ?_
      simp only [call, counted, length_range]
      rw [Nat.add_left_inj]
      by_cases known : session.counted = true
      · exact inStep.counted known
      · exact careful (Bool.eq_false_iff.mpr known)

end Session

/--
All along a session the pending edit is the last one, and a forward leaves as
many rows as `all_seq_len` says, exactly if every call is careful.
-/
theorem history_inStep_iff (mBlockSize : Nat) (calls : List Call) :
    Always (Session.call mBlockSize) (Session.InStep mBlockSize) {} calls ↔
      EachAllowed (Session.call mBlockSize) (Session.Careful mBlockSize) {}
        calls := by
  apply always_iff_eachAllowed
  · exact fun session event inStep => Session.inStep_call inStep event
  · exact .of_kept rfl fun _ => rfl

/-- A range that was reserved before `reset` comes back behind it. -/
theorem history_reset_reserve :
    ¬∀ (mBlockSize : Nat) (calls : List Call),
      Always (Session.call mBlockSize) (Session.InStep mBlockSize) {} calls := by
  intro always
  have inStep := always 0 [.forward 10, .eraseHistory 2 4 .refused, .reset, .forward 3] _
      (prefix_refl _)
  exact absurd inStep.kept (by decide)

end Mnn.Llm
