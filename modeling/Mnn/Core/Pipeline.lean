import Mathlib

/-!
# The resize planner

`_allocForTensor` counts how often the commands read each tensor, allocates what they
write, and releases what they read once nothing else reads it.
-/

namespace Mnn.Core.ResizePlanner

/-! ## Tensors -/

inductive MemoryType
  | MEMORY_BACKEND
  | MEMORY_HOST
  | MEMORY_VIRTUAL
  | MEMORY_OUTSIDE
  deriving DecidableEq

inductive Usage
  | NORMAL
  | INPUT
  | OUTPUT
  | CONSTANT
  | TRAINABLE
  deriving DecidableEq

inductive StorageType
  | STATIC
  | DYNAMIC
  | DYNAMIC_SEPERATE
  deriving DecidableEq

/-- What the planner reads of `NativeInsideDescribe`, which tensors may share. -/
structure NativeInsideDescribe where
  memoryType : MemoryType
  useCount : Int
  usage : Usage
  group : Int

abbrev ErrorCode : Type := Int

def NO_ERROR : ErrorCode := 0

def OUT_OF_MEMORY : ErrorCode := 1

structure Command (Tensor Backend : Type) where
  workInputs : List Tensor
  workOutputs : List Tensor
  group : Int
  backend : Backend
  needAllocIO : Bool

/-- What an operator became: its commands, and whether it is constant. -/
structure OpCacheInfo (Tensor Backend : Type) where
  isConstant : Bool
  command : List (Command Tensor Backend)

/-- The fields of the tensors that change, and what the allocators remember. -/
structure State (Tensor Content Backend Mem Pool : Type) where
  describe : Content → NativeInsideDescribe
  backend : Tensor → Option Backend
  mem : Tensor → Option Mem
  pool : Pool

/-- The tensors and the backends of a pipeline. -/
structure Pipeline (Tensor Content Backend Mem Pool : Type) where
  content : Tensor → Content
  isHandle : Tensor → Bool
  mOutputStatic : Bool
  onResizeBegin : Pool → Pool
  onAcquire : Pool → Backend → Tensor → StorageType → Option Mem × Pool
  /-- A pointer to memory is reset. -/
  onReset : Pool → Mem → Pool
  onResize : Pool → Command Tensor Backend → ErrorCode × Pool
  onResizeEnd : Pool → ErrorCode × Pool

section Planner

variable {Tensor Content Backend Mem Pool : Type}
variable [DecidableEq Tensor] [DecidableEq Content]
variable (pipeline : Pipeline Tensor Content Backend Mem Pool)

namespace Pipeline

def getDescribe (t : Tensor) (state : State Tensor Content Backend Mem Pool) :
    NativeInsideDescribe :=
  state.describe (pipeline.content t)

def getTensorStorageType (t : Tensor)
    (state : State Tensor Content Backend Mem Pool) : StorageType :=
  let usage := (pipeline.getDescribe t state).usage
  if usage = .OUTPUT ∧ pipeline.mOutputStatic = true then
    .STATIC
  else if usage = .CONSTANT ∨ usage = .INPUT ∨ usage = .TRAINABLE then
    .DYNAMIC_SEPERATE
  else
    .DYNAMIC

def needRelease (t : Tensor) (inputOutside : Bool)
    (state : State Tensor Content Backend Mem Pool) : Bool :=
  let des := pipeline.getDescribe t state
  if des.useCount ≠ 0 then
    false
  else if des.memoryType = .MEMORY_HOST ∨ des.memoryType = .MEMORY_OUTSIDE then
    false
  else if (state.backend t).isNone then
    false
  else if inputOutside then
    des.usage = .NORMAL
  else if pipeline.isHandle t then
    false
  else if des.usage = .CONSTANT ∨ des.usage = .TRAINABLE ∨ des.usage = .OUTPUT then
    false
  else
    true

def setUseCount (t : Tensor) (useCount : Int) (state : State Tensor Content Backend Mem Pool) :
    State Tensor Content Backend Mem Pool :=
  { state with
    describe := Function.update state.describe (pipeline.content t)
        { pipeline.getDescribe t state with useCount := useCount } }

/-- `mem = nullptr`. -/
def resetMem (t : Tensor) (state : State Tensor Content Backend Mem Pool) :
    State Tensor Content Backend Mem Pool :=
  match state.mem t with
  | none => state
  | some mem =>
    { state with
      mem := Function.update state.mem t none
      pool := pipeline.onReset state.pool mem }

def releaseTensor (allocInput : Bool) (group : Int)
    (state : State Tensor Content Backend Mem Pool) (origin : Tensor) :
    State Tensor Content Backend Mem Pool :=
  let des := pipeline.getDescribe origin state
  let state :=
    if des.usage ≠ .CONSTANT then
      pipeline.setUseCount origin (des.useCount - 1) state
    else
      state
  if des.group ≠ group then
    state
  else if pipeline.needRelease origin (!allocInput) state then
    pipeline.resetMem origin state
  else
    state

def allocTensor (curBackend : Backend) (group : Int)
    (state : State Tensor Content Backend Mem Pool) (t : Tensor) :
    Except ErrorCode (State Tensor Content Backend Mem Pool) :=
  if (pipeline.getDescribe t state).group ≠ group then
    .ok state
  else
    match state.mem t with
    | some _ => .ok state
    | none =>
      match
        pipeline.onAcquire state.pool curBackend t (pipeline.getTensorStorageType t state) with
      | (none, _) => .error OUT_OF_MEMORY
      | (some mem, pool) =>
        .ok
          { state with
            mem := Function.update state.mem t (some mem)
            backend := Function.update state.backend t (some ((state.backend t).getD curBackend))
            pool := pool }

/-! ## The passes -/

/-- The commands of the loops, which leave constant operators out. -/
def commands (infos : List (OpCacheInfo Tensor Backend)) : List (Command Tensor Backend) :=
  (infos.filter fun info => !info.isConstant).flatMap OpCacheInfo.command

/-- What is read, in order. -/
def reads (commands : List (Command Tensor Backend)) : List Tensor :=
  commands.flatMap Command.workInputs

def resetCount (state : State Tensor Content Backend Mem Pool) (t : Tensor) :
    State Tensor Content Backend Mem Pool :=
  if (pipeline.getDescribe t state).usage ≠ .CONSTANT then
    pipeline.setUseCount t 0 state
  else
    state

def countUse (state : State Tensor Content Backend Mem Pool) (t : Tensor) :
    State Tensor Content Backend Mem Pool :=
  let des := pipeline.getDescribe t state
  if des.usage ≠ .CONSTANT then
    pipeline.setUseCount t (des.useCount + 1) state
  else
    state

/-- The state before the first command. -/
def counted (infos : List (OpCacheInfo Tensor Backend))
    (state : State Tensor Content Backend Mem Pool) :
    State Tensor Content Backend Mem Pool :=
  let state := (reads (commands infos)).foldl pipeline.resetCount state
  let state := (reads (commands infos)).foldl pipeline.countUse state
  { state with pool := pipeline.onResizeBegin state.pool }

variable (index : Int) (allocInput : Bool)

def allocTensors (needed : Bool) (curBackend : Backend) (tensors : List Tensor)
    (state : State Tensor Content Backend Mem Pool) :
    Except ErrorCode (State Tensor Content Backend Mem Pool) :=
  if needed then
    tensors.foldlM (pipeline.allocTensor curBackend index) state
  else
    .ok state

def resizeExecution (command : Command Tensor Backend)
    (state : State Tensor Content Backend Mem Pool) :
    Except ErrorCode (State Tensor Content Backend Mem Pool) :=
  if command.group = index then
    let (code, pool) := pipeline.onResize state.pool command
    if code ≠ NO_ERROR then
      .error code
    else
      .ok { state with pool := pool }
  else
    .ok state

/-- What a command reads and writes is allocated, and its execution is resized. -/
def prepare (command : Command Tensor Backend) (state : State Tensor Content Backend Mem Pool) :
    Except ErrorCode (State Tensor Content Backend Mem Pool) := do
  let state ←
    pipeline.allocTensors index (allocInput && command.needAllocIO)
      command.backend command.workInputs state
  let state ←
    pipeline.allocTensors index command.needAllocIO command.backend command.workOutputs state
  pipeline.resizeExecution index command state

/-- "Free mid tensor". -/
def freeInputs (command : Command Tensor Backend) (state : State Tensor Content Backend Mem Pool) :
    State Tensor Content Backend Mem Pool :=
  command.workInputs.foldl (pipeline.releaseTensor allocInput index) state

def resizeCommand (state : State Tensor Content Backend Mem Pool)
    (command : Command Tensor Backend) :
    Except ErrorCode (State Tensor Content Backend Mem Pool) :=
  (pipeline.prepare index allocInput command state).map
    (pipeline.freeInputs index allocInput command)

def resizeCommands (commands : List (Command Tensor Backend))
    (state : State Tensor Content Backend Mem Pool) :
    Except ErrorCode (State Tensor Content Backend Mem Pool) :=
  commands.foldlM (pipeline.resizeCommand index allocInput) state

def recycleDynamicMemory (state : State Tensor Content Backend Mem Pool)
    (command : Command Tensor Backend) :
    State Tensor Content Backend Mem Pool :=
  (command.workOutputs ++ command.workInputs).foldl (fun state t =>
      if pipeline.getTensorStorageType t state = .DYNAMIC then
        pipeline.resetMem t state
      else
        state)
    state

def allocForTensor (infos : List (OpCacheInfo Tensor Backend))
    (state : State Tensor Content Backend Mem Pool) :
    Except ErrorCode (State Tensor Content Backend Mem Pool) := do
  let state ←
    pipeline.resizeCommands index allocInput (commands infos) (pipeline.counted infos state)
  let recycled :=
    (infos.flatMap OpCacheInfo.command).filter fun command =>
      decide (command.group = index)
  let state := recycled.foldl pipeline.recycleDynamicMemory state
  let (code, pool) := pipeline.onResizeEnd state.pool
  if code ≠ NO_ERROR then
    .error code
  else
    .ok { state with pool := pool }

/-- Tensors that are released once nothing reads them any more. -/
structure Releasable (infos : List (OpCacheInfo Tensor Backend))
    (start : State Tensor Content Backend Mem Pool) (t : Tensor) : Prop where
  group : (pipeline.getDescribe t start).group = index
  notHost : (pipeline.getDescribe t start).memoryType ≠ .MEMORY_HOST
  notOutside : (pipeline.getDescribe t start).memoryType ≠ .MEMORY_OUTSIDE
  usage :
    match allocInput with
    | false => (pipeline.getDescribe t start).usage = .NORMAL
    | true =>
      pipeline.isHandle t = false ∧ (pipeline.getDescribe t start).usage ≠ .CONSTANT ∧
          (pipeline.getDescribe t start).usage ≠ .TRAINABLE ∧
            (pipeline.getDescribe t start).usage ≠ .OUTPUT
  /-- Memory that it has already belongs to a backend. -/
  hasBackend : start.mem t ≠ none → start.backend t ≠ none
  /-- Its uses are not counted together with those of another tensor. -/
  ownsDescribe :
    ∀ other ∈ reads (commands infos), pipeline.content other = pipeline.content t → other = t

/-- Tensors that one command writes and that are read behind it. -/
structure Intermediate (infos : List (OpCacheInfo Tensor Backend))
    (start : State Tensor Content Backend Mem Pool) (t : Tensor) : Prop where
  releasable : pipeline.Releasable index allocInput infos start t
  empty : start.mem t = none
  produced : ∃ (earlier later : List (Command Tensor Backend)) (producer : Command Tensor Backend),
      commands infos = earlier ++ producer :: later ∧
        t ∈ producer.workOutputs ∧ producer.needAllocIO = true ∧
          (∀ command ∈ earlier ++ later, t ∉ command.workOutputs) ∧
            (∀ command ∈ earlier ++ [producer], t ∉ command.workInputs) ∧
              ∃ command ∈ later, t ∈ command.workInputs

end Pipeline

end Planner

end Mnn.Core.ResizePlanner
