import Mnn.Core.DeferBufferAllocator
import Mnn.Foundation.Runs

/-!
# The buffer behind the plans

`SingleBufferWithAllocator` holds one block of its `root` at a time.  It gives the block
back before it asks for a larger one; if there is none, it still records the size that it
had before.
-/

namespace Mnn.Core.BufferAllocator

open Mnn.Foundation.Runs

namespace SingleBufferWithAllocator

/-- The destructor does the same. -/
def release (buffer : SingleBufferWithAllocator) : SingleBufferWithAllocator :=
  if buffer.current.first ≠ 0 then
    { current := { buffer.current with first := 0, second := 0 }
      currentSize := 0
      released := buffer.released ++ [buffer.current] }
  else
    buffer

/-- The block that is held. -/
def held (buffer : SingleBufferWithAllocator) : List MemChunk :=
  if buffer.current.first ≠ 0 then [buffer.current] else []

theorem released_release (buffer : SingleBufferWithAllocator) :
    buffer.release.released = buffer.released ++ buffer.held := by
  rw [release, held]
  by_cases isHeld : buffer.current.first ≠ 0
  · rw [if_pos isHeld, if_pos isHeld]
  · rw [if_neg isHeld, if_neg isHeld, List.append_nil]

theorem held_release (buffer : SingleBufferWithAllocator) : buffer.release.held = [] := by
  rw [release]
  by_cases isHeld : buffer.current.first ≠ 0
  · rw [if_pos isHeld]
    rfl
  · rw [if_neg isHeld, held, if_neg isHeld]

end SingleBufferWithAllocator

/-! ## Calls -/

/-- A call, and what `root` answers if it is asked. -/
inductive BufferCall
  | realloc (size align : Nat) (answer : MemChunk)
  | release

/-- The buffer, the blocks it has been given with the sizes that it asked for, and what
the last call of `realloc` was for and returned. -/
structure BufferRun where
  buffer : SingleBufferWithAllocator := {}
  obtained : List (MemChunk × Nat) := []
  returned : Option (Nat × ErrorCode) := none

namespace BufferRun

def step (run : BufferRun) : BufferCall → BufferRun
  | .realloc size align answer =>
    let result := run.buffer.realloc (fun _ _ => answer) size align
    { buffer := result.2
      obtained :=
        if run.buffer.currentSize < size ∧ answer.first ≠ 0 then
          run.obtained ++ [(answer, size)]
        else
          run.obtained
      returned := some (size, result.1) }
  | .release => { run with buffer := run.buffer.release, returned := none }

/--
Each block is given back once or held, the block that is held is the last one and of the
recorded size; and where `realloc` succeeds, there is a block as large as requested.
-/
structure Sound (run : BufferRun) : Prop where
  balanced : run.obtained.map Prod.fst = run.buffer.released ++ run.buffer.held
  recorded :
    run.buffer.current.first ≠ 0 →
      run.obtained.getLast? = some (run.buffer.current, run.buffer.currentSize)
  succeeds :
    ∀ size, run.returned = some (size, .noError) → run.buffer.current.first ≠ 0 ∧
          ∃ granted, run.obtained.getLast? = some (run.buffer.current, granted) ∧ size ≤ granted

/-- A block is held unless more is asked for than is recorded. -/
def Allowed (run : BufferRun) : BufferCall → Prop
  | .realloc size _ _ => run.buffer.current.first ≠ 0 ∨ run.buffer.currentSize < size
  | .release => True

section

variable {run : BufferRun}

theorem sound_release (sound : run.Sound) : (run.step .release).Sound := by
  have noBlock : run.buffer.release.current.first = 0 := by
    by_contra isHeld
    have isNone := run.buffer.held_release
    rw [SingleBufferWithAllocator.held, if_pos isHeld] at isNone
    cases isNone
  refine ⟨?_, fun isHeld => absurd noBlock isHeld, fun size isReturned => ?_⟩
  · show run.obtained.map Prod.fst = run.buffer.release.released ++ run.buffer.release.held
    rw [run.buffer.released_release, run.buffer.held_release, List.append_nil]
    exact sound.balanced
  · cases isReturned

theorem step_small {size : Nat} (isSmall : ¬run.buffer.currentSize < size)
    (align : Nat) (answer : MemChunk) :
    run.step (.realloc size align answer) = { run with returned := some (size, .noError) } := by
  simp only [step, SingleBufferWithAllocator.realloc, if_neg isSmall]
  rw [if_neg fun asked => isSmall asked.1]

theorem sound_small_iff (sound : run.Sound) {size : Nat}
    (isSmall : ¬run.buffer.currentSize < size) (align : Nat) (answer : MemChunk) :
    (run.step (.realloc size align answer)).Sound ↔ run.buffer.current.first ≠ 0 := by
  rw [step_small isSmall]
  constructor
  · intro next
    exact (next.succeeds size rfl).1
  · intro isHeld
    refine ⟨sound.balanced, sound.recorded, fun size' isReturned => ?_⟩
    obtain rfl : size = size' := congrArg Prod.fst (Option.some.inj isReturned)
    exact ⟨isHeld, run.buffer.currentSize, sound.recorded isHeld, Nat.not_lt.mp isSmall⟩

theorem sound_large (sound : run.Sound) {size : Nat}
    (isLarge : run.buffer.currentSize < size) (align : Nat) (answer : MemChunk) :
    (run.step (.realloc size align answer)).Sound := by
  have areReleased :
      (if run.buffer.current.first ≠ 0 then run.buffer.released ++ [run.buffer.current]
        else run.buffer.released) =
        run.obtained.map Prod.fst := by
    rw [sound.balanced, SingleBufferWithAllocator.held]
    by_cases isHeld : run.buffer.current.first ≠ 0
    · rw [if_pos isHeld, if_pos isHeld]
    · rw [if_neg isHeld, if_neg isHeld, List.append_nil]
  by_cases isBlock : answer.first = 0
  · have isStep :
        run.step (.realloc size align answer) =
          { buffer :=
              { run.buffer with current := answer, released := run.obtained.map Prod.fst }
            obtained := run.obtained
            returned := some (size, .outOfMemory) } := by
      simp only [step, SingleBufferWithAllocator.realloc, if_pos isLarge, if_pos isBlock,
        areReleased]
      rw [if_neg fun asked => asked.2 isBlock]
    rw [isStep]
    refine ⟨?_, fun isHeld => absurd isBlock isHeld, fun size isReturned => ?_⟩
    · show run.obtained.map Prod.fst = run.obtained.map Prod.fst ++ _
      rw [SingleBufferWithAllocator.held, if_neg (not_not.mpr isBlock), List.append_nil]
    · cases isReturned
  · have isStep :
        run.step (.realloc size align answer) =
          { buffer :=
              { current := answer, currentSize := size
                released := run.obtained.map Prod.fst }
            obtained := run.obtained ++ [(answer, size)]
            returned := some (size, .noError) } := by
      simp only [step, SingleBufferWithAllocator.realloc, if_pos isLarge, if_neg isBlock,
        areReleased]
      rw [if_pos ⟨isLarge, isBlock⟩]
    have isLast : (run.obtained ++ [(answer, size)]).getLast? = some (answer, size) :=
      List.getLast?_concat
    rw [isStep]
    refine ⟨?_, fun _ => isLast, fun size' isReturned => ?_⟩
    · show (run.obtained ++ [(answer, size)]).map Prod.fst = run.obtained.map Prod.fst ++ _
      rw [SingleBufferWithAllocator.held, if_pos isBlock, List.map_append]
      rfl
    · obtain rfl : size = size' := congrArg Prod.fst (Option.some.inj isReturned)
      exact ⟨isBlock, size, isLast, Nat.le_refl size⟩

theorem sound_step_iff (sound : run.Sound) (call : BufferCall) :
    (run.step call).Sound ↔ run.Allowed call := by
  cases call with
  | release => exact iff_of_true (sound_release sound) trivial
  | realloc size align answer =>
    by_cases isLarge : run.buffer.currentSize < size
    · exact iff_of_true (sound_large sound isLarge align answer) (Or.inr isLarge)
    · rw [sound_small_iff sound isLarge align answer]
      exact (or_iff_left isLarge).symm

end

theorem sound_start : Sound {} :=
  ⟨rfl, fun isHeld => absurd rfl isHeld, fun _ isReturned => by cases isReturned⟩

end BufferRun

/-- A run is sound if no call without a block asks for as little as is recorded. -/
theorem SingleBufferWithAllocator.runs_sound_iff (calls : List BufferCall) :
    Always BufferRun.step BufferRun.Sound {} calls ↔
      EachAllowed BufferRun.step BufferRun.Allowed {} calls :=
  always_iff_eachAllowed (fun _ call sound => BufferRun.sound_step_iff sound call)
    BufferRun.sound_start

/-- A small request succeeds without memory after a large one has failed. -/
theorem SingleBufferWithAllocator.not_runs_sound :
    ¬∀ calls : List BufferCall, Always BufferRun.step BufferRun.Sound {} calls := by
  intro always
  have sound := always
      [.realloc 16 64 { first := 1 }, .realloc 32 64 {}, .realloc 8 64 { first := 2 }] _
      (List.prefix_refl _)
  exact (sound.succeeds 8 rfl).1 rfl

end Mnn.Core.BufferAllocator
