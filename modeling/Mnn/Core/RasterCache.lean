import Mnn.Core.Region
import Mnn.Foundation.RankedRecursion

/-!
# Raster commands for virtual tensors

A virtual tensor has no memory but a list of regions over other tensors.
`getRasterCacheCreateRecursive` makes raster commands for a virtual tensor and
for the virtual tensors it reads.  Before that it fuses regions with those of
the tensors they read, as long as `FuseWrap` finds a match.

`FuseWrap` is a parameter.  `match` leaves in the object what `apply` needs,
and `apply` is only called behind `match` for the same pair of regions, so both
are functions of the pair.  The loops take as much fuel as they may need
rounds; a result of `none` means that the fuel has run out, or that a region
has no origin.
-/

variable {cell middle : Int} {regions : List Region} {reg : Region}

namespace Mnn.Core.Raster

open Mnn.Foundation.RankedRecursion
open List

structure FuseWrap where
  «match» : Region → Region → Bool
  apply : Region → Region → Region

/-- The bits of the geometry mask which are looked at. -/
structure GeometryMask where
  fuseRegion : Bool
  fuseRegionMulti : Bool
  deriving DecidableEq, Repr

/-- What is read of a tensor and of its description. -/
structure TensorDescribe where
  /-- `memoryType == MEMORY_VIRTUAL`. -/
  isVirtual : Bool := false
  /-- `rasterCommand` refers to a command that is alive. -/
  rasterCommand : Bool := false
  /-- `_hasZeroDim`. -/
  hasZeroDim : Bool := false
  regions : List Region := []

/-- A raster command. -/
structure Command where
  output : TensorPtr
  inputs : List (Option TensorPtr)

/-- The tensors and the command buffer. -/
structure Context where
  tensors : TensorPtr → TensorDescribe
  command : List Command := []

def _virtualMemory (des : TensorDescribe) : Bool := des.isVirtual && !des.rasterCommand

namespace Context

def setRegions (context : Context) (src : TensorPtr) (regions : List Region) : Context :=
  { context with
    tensors := Function.update context.tensors src { context.tensors src with regions := regions } }

def getRasterCacheCreate (context : Context) (src : TensorPtr) : Context :=
  if _virtualMemory (context.tensors src) then
    { tensors :=
        Function.update context.tensors src { context.tensors src with rasterCommand := true }
      command :=
        context.command ++
          [{ output := src
             inputs := (context.tensors src).regions.map Region.origin }] }
  else
    context

end Context

section Lowering

variable (fuseUtils : FuseWrap) (mask : GeometryMask)

/--
The `while` loop over one region, with `tensors` for the tensors it reads from;
the flag says that a region was found empty.
-/
def fuseInput (tensors : TensorPtr → TensorDescribe) :
    Nat → List Region → Nat → Option (List Region × Bool)
  | 0, _, _ => none
  | fuel + 1, regions, regIndex =>
    match regions[regIndex]? with
    | none => none
    | some input =>
      match input.origin with
      | none => none
      | some origin =>
        let inputDes := tensors origin
        if ¬(_virtualMemory inputDes && mask.fuseRegion) then
          some (regions, false)
        else
          match inputDes.regions with
          | [] =>
            some (regions.set regIndex
                { input with
                  size := Function.update input.size 0 0 },
                true)
          | first :: rest =>
            if inputDes.regions.length > 1 then
              if ¬mask.fuseRegionMulti then
                some (regions, false)
              else if
                  ¬inputDes.regions.all fun reg =>
                    fuseUtils.match reg input then
                some (regions, false)
              else
                let fused := fuseUtils.apply first input
                let newRegs :=
                  (rest.map fun reg =>
                    fuseUtils.apply reg input).filter fun newReg =>
                      newReg.size 0 ≠ 0
                let regions := regions.set regIndex fused ++ newRegs
                if fused.size 0 = 0 then
                  some (regions, true)
                else
                  fuseInput tensors fuel regions regIndex
            else if ¬fuseUtils.match first input then
              some (regions, false)
            else
              let fused := fuseUtils.apply first input
              let regions := regions.set regIndex fused
              if fused.size 0 = 0 then
                some (regions, true)
              else
                fuseInput tensors fuel regions regIndex

/-- The `for` loop over the regions; `recurse` lowers the tensors they read. -/
def fuseRegions (recurse : Context → TensorPtr → Option Context) :
    Nat → Context → TensorPtr → Nat → Bool → Option (Context × Bool)
  | fuel, context, src, regIndex, needDelete =>
    let regions := (context.tensors src).regions
    if regions.length ≤ regIndex then
      some (context, needDelete)
    else
      match fuel with
      | 0 => none
      | fuel + 1 =>
        match
          fuseInput fuseUtils mask context.tensors (fuel + 1) regions regIndex with
        | none => none
        | some (regions, isEmpty) =>
          let context := context.setRegions src regions
          let needDelete := needDelete || isEmpty
          match regions[regIndex]? with
          | none => none
          | some input =>
            if input.size 0 > 0 then
              match input.origin with
              | none => none
              | some origin =>
                match recurse context origin with
                | none => none
                | some context =>
                  fuseRegions recurse fuel context src (regIndex + 1) needDelete
            else
              fuseRegions recurse fuel context src (regIndex + 1) needDelete

def getRasterCacheCreateRecursive : Nat → Context → TensorPtr → Option Context
  | 0, _, _ => none
  | fuel + 1, context, src =>
    if ¬_virtualMemory (context.tensors src) then
      some context
    else if (context.tensors src).hasZeroDim then
      some context
    else
      match
        fuseRegions fuseUtils mask (getRasterCacheCreateRecursive fuel)
          fuel context src 0 false with
      | none => none
      | some (context, needDelete) =>
        let context :=
          if needDelete then
            context.setRegions src ((context.tensors src).regions.filter fun input =>
                ¬(input.size 0 = 0 ∨ input.size 1 = 0 ∨ input.size 2 = 0))
          else
            context
        some (context.getRasterCacheCreate src)

end Lowering

/-! ## What tensors hold -/

section Values

variable {Value : Type*} [Zero Value]

/-- The cells of every tensor. -/
abbrev Memory (Value : Type*) := TensorPtr → Int → Value

/-- A raster clears its output and runs the regions in their order. -/
def rasterValue (regions : List Region) (memory : Memory Value) : Int → Value := regions.foldl
    (fun target reg =>
      match reg.origin with
      | none => target
      | some origin => reg.blit (memory origin) target)
    0

/-- Run the commands in their order. -/
def execute (tensors : TensorPtr → TensorDescribe) (commands : List Command)
    (memory : Memory Value) : Memory Value :=
  commands.foldl (fun memory command =>
      Function.update memory command.output (rasterValue (tensors command.output).regions memory))
    memory

/-- A virtual tensor holds what its regions give, the others what they have. -/
def tensorStep (graph : TensorPtr → TensorDescribe) (memory : Memory Value)
    (tensor : TensorPtr) (values : Memory Value) : Int → Value :=
  if _virtualMemory (graph tensor) then
    rasterValue (graph tensor).regions values
  else
    memory tensor

/-- The value of a tensor in the graph of regions. -/
def evaluate (graph : TensorPtr → TensorDescribe) (rank : TensorPtr → Nat)
    (memory : Memory Value) : Memory Value :=
  solve (tensorStep graph memory) 0 rank

end Values

/-- Regions have an origin, and origins have smaller rank. -/
def Acyclic (graph : TensorPtr → TensorDescribe) (rank : TensorPtr → Nat) : Prop :=
  ∀ tensor, _virtualMemory (graph tensor) = true → ∀ reg ∈ (graph tensor).regions,
      ∃ origin, reg.origin = some origin ∧ rank origin < rank tensor

/-!
# Lists of regions

What a raster writes to a cell is decided by the regions that write this cell,
in their order.  A region may be replaced by the regions it is fused to when no
region which comes earlier, and none which the new ones overtake, writes the
same cells.
-/

open Region
open Mnn.Foundation.StridedLoops

/-- The cell whose value a cell gets in the end. -/
def Region.source (reg : Region) (cell : Int) : Option Int := reg.blit some (fun _ => none) cell

theorem Region.blit_eq {Value : Type*} (reg : Region) (memory target : Int → Value) (cell : Int) :
    reg.blit memory target cell = (reg.source cell).elim (target cell) memory :=
  copyAll_eq_elim rfl

theorem Region.source_eq_none :
    reg.source cell = none ↔ ¬reg.Writes cell := by
  constructor
  · rintro isNone ⟨first, copies⟩
    rw [← mem_moves] at copies
    have found : copyAll reg.moves (fun _ => true) (fun _ => false) cell = true :=
      copyAll_of_mem (fun _ _ => rfl) copies
    rw [show copyAll reg.moves _ _ cell = _ from reg.blit_eq _ _ cell, isNone] at found
    cases found
  · intro untouched
    exact blit_of_not_writes _ _ untouched

variable {fused srcReg dstReg : Region}

section

variable {Value : Type*} [Zero Value]

/-- One region of a raster. -/
def blitFrom (memory : Memory Value) (target : Int → Value) (reg : Region) : Int → Value :=
  match reg.origin with
  | none => target
  | some origin => reg.blit (memory origin) target

theorem rasterValue_eq (regions : List Region) (memory : Memory Value) :
    rasterValue regions memory = regions.foldl (blitFrom memory) 0 :=
  rfl

variable {target target' : Int → Value}

section

variable {memory : Memory Value}

theorem blitFrom_other (untouched : ¬reg.Writes cell) :
    blitFrom memory target reg cell = target cell := by
  cases isOrigin : reg.origin with
  | none => simp only [blitFrom, isOrigin]
  | some origin =>
    simp only [blitFrom, isOrigin]
    exact blit_of_not_writes _ _ untouched

theorem blitFrom_congr (same : target cell = target' cell) :
    blitFrom memory target reg cell = blitFrom memory target' reg cell := by
  cases isOrigin : reg.origin with
  | none =>
    simp only [blitFrom, isOrigin]
    exact same
  | some origin =>
    simp only [blitFrom, isOrigin]
    rw [reg.blit_eq, reg.blit_eq, same]

theorem foldl_blitFrom_other (untouched : ∀ reg ∈ regions, ¬reg.Writes cell) :
    regions.foldl (blitFrom memory) target cell = target cell := by
  induction regions generalizing target with
  | nil => rfl
  | cons reg rest ih =>
    rw [foldl_cons, ih fun other member =>
        untouched other (mem_cons_of_mem _ member)]
    exact blitFrom_other (untouched reg mem_cons_self)

theorem foldl_blitFrom_congr (same : target cell = target' cell) :
    regions.foldl (blitFrom memory) target cell = regions.foldl (blitFrom memory) target' cell := by
  induction regions generalizing target target' with
  | nil => exact same
  | cons reg rest ih => exact ih (blitFrom_congr same)

end

theorem not_writes_of_size (noSize : ¬0 < reg.size 0) (cell : Int) : ¬reg.Writes cell := by
  rintro ⟨first, copies⟩
  exact noSize (copies.positive 0)

variable {memory : Memory Value}

theorem rasterValue_congr {memory' : Memory Value} (same :
      ∀ reg ∈ regions, 0 < reg.size 0 → ∀ origin, reg.origin = some origin →
        memory origin = memory' origin) :
    rasterValue regions memory = rasterValue regions memory' := by
  rw [rasterValue_eq, rasterValue_eq]
  generalize (0 : Int → Value) = target
  induction regions generalizing target with
  | nil => rfl
  | cons reg rest ih =>
    have here : blitFrom memory target reg = blitFrom memory' target reg := by
      by_cases positive : 0 < reg.size 0
      · cases isOrigin : reg.origin with
        | none => simp only [blitFrom, isOrigin]
        | some origin =>
          simp only [blitFrom, isOrigin, same reg mem_cons_self positive origin isOrigin]
      · ext cell
        have untouched := not_writes_of_size positive cell
        rw [blitFrom_other untouched, blitFrom_other untouched]
    rw [foldl_cons, foldl_cons, here]
    apply ih
    intro other member
    exact same other (mem_cons_of_mem _ member)

/-- The two regions write no common cell. -/
def Apart (first second : Region) : Prop := ∀ cell, first.Writes cell → ¬second.Writes cell

theorem Apart.symm {first second : Region} (apart : Apart first second) : Apart second first :=
  fun cell writes also => apart cell also writes

/--
Replace a region where it stands, and add others at the end.  The regions
before it must not write its cells, as it may now write fewer of them; nor the
regions behind it, as the added ones come later.
-/
theorem rasterValue_replace {front back added : List Region} {reg' : Region}
    (apart : ∀ other ∈ front, Apart other reg)
    (apartBack : added ≠ [] → ∀ other ∈ back, Apart reg other)
    (inside : ∀ other ∈ reg' :: added, ∀ cell, other.Writes cell → reg.Writes cell)
    (same :
      ∀ cell, reg.Writes cell → rasterValue (reg' :: added) memory cell =
          rasterValue [reg] memory cell) :
    rasterValue (front ++ reg' :: (back ++ added)) memory =
      rasterValue (front ++ reg :: back) memory := by
  ext cell
  simp only [rasterValue_eq, foldl_append, foldl_cons] at same ⊢
  by_cases writes : reg.Writes cell
  · have before : front.foldl (blitFrom memory) 0 cell = (0 : Int → Value) cell :=
      foldl_blitFrom_other fun other member written =>
        apart other member cell written writes
    have changed :
        ∀ other : Region, blitFrom memory (front.foldl (blitFrom memory) 0) other cell =
            blitFrom memory 0 other cell :=
      fun other => blitFrom_congr before
    have here := same cell writes
    by_cases alone : added = []
    · subst alone
      simp only [foldl_nil] at here ⊢
      apply foldl_blitFrom_congr
      rw [changed, changed]
      exact here
    · have behind :
          ∀ target : Int → Value, back.foldl (blitFrom memory) target cell = target cell :=
        fun target =>
          foldl_blitFrom_other fun other member =>
            apartBack alone other member cell writes
      rw [behind, foldl_blitFrom_congr (behind _), foldl_blitFrom_congr (changed reg'), changed]
      exact here
  · have silent : ∀ other ∈ reg' :: added, ¬other.Writes cell :=
      fun other member written => writes (inside other member cell written)
    rw [foldl_blitFrom_other fun other member =>
        silent other (mem_cons_of_mem _ member)]
    apply foldl_blitFrom_congr
    rw [blitFrom_other (silent reg' mem_cons_self), blitFrom_other writes]

theorem foldl_blitFrom_drop {keep : Region → Bool}
    (silent : ∀ reg ∈ regions, keep reg = false → ∀ cell, ¬reg.Writes cell) (target : Int → Value) :
    (regions.filter keep).foldl (blitFrom memory) target =
      regions.foldl (blitFrom memory) target := by
  induction regions generalizing target with
  | nil => rfl
  | cons reg rest ih =>
    have later := ih fun other member =>
        silent other (mem_cons_of_mem _ member)
    cases kept : keep reg with
    | true =>
      rw [filter_cons_of_pos kept, foldl_cons, foldl_cons]
      exact later _
    | false =>
      have nothing : blitFrom memory target reg = target := by
        ext cell
        exact blitFrom_other (silent reg mem_cons_self kept cell)
      rw [filter_cons_of_neg (by rw [kept]; exact Bool.false_ne_true), foldl_cons, nothing]
      exact later _

/-! ## Fused regions -/

/-- What `FuseWrap` promises for two regions that match. -/
structure FusesPair (fused srcReg dstReg : Region) : Prop where
  sameOrigins : SameOrigins fused srcReg dstReg
  inside : ∀ cell, fused.Writes cell → dstReg.Writes cell
  origin : fused.size 0 = 0 ∨ fused.origin = srcReg.origin

def FuseWrap.Sound (fuseUtils : FuseWrap) : Prop :=
  ∀ srcReg dstReg, fuseUtils.match srcReg dstReg = true →
    FusesPair (fuseUtils.apply srcReg dstReg) srcReg dstReg

theorem empty_not_writes (isEmpty : reg.size 0 = 0) (cell : Int) : ¬reg.Writes cell :=
  not_writes_of_size (by rw [isEmpty]; exact Int.lt_irrefl 0) cell

/-- The fused region looks where the first one looks for the middle cell. -/
theorem FusesPair.source_eq (fuses : FusesPair fused srcReg dstReg)
    (read : dstReg.source cell = some middle) :
    fused.source cell = srcReg.source middle := by
  have writes : dstReg.Writes cell := by
    by_contra untouched
    rw [source_eq_none.mpr untouched] at read
    cases read
  have same := fuses.sameOrigins cell writes
  rw [dstReg.blit_eq, read] at same
  exact same

theorem FusesPair.apart {fused fused' srcReg srcReg' dstReg : Region}
    (fuses : FusesPair fused srcReg dstReg) (fuses' : FusesPair fused' srcReg' dstReg)
    (apart : Apart srcReg srcReg') : Apart fused fused' := by
  intro cell writes writes'
  cases read : dstReg.source cell with
  | none => exact source_eq_none.mp read (fuses.inside cell writes)
  | some middle =>
    refine apart middle ?_ ?_
    · by_contra untouched
      rw [← source_eq_none, ← fuses.source_eq read] at untouched
      exact source_eq_none.mp untouched writes
    · by_contra untouched
      rw [← source_eq_none, ← fuses'.source_eq read] at untouched
      exact source_eq_none.mp untouched writes'

/-- A fused region does at a cell what its first region does in the middle. -/
theorem FusesPair.blitFrom_eq (fuses : FusesPair fused srcReg dstReg)
    (read : dstReg.source cell = some middle) (same : target cell = target' middle) :
    blitFrom memory target fused cell = blitFrom memory target' srcReg middle := by
  have sameSource := fuses.source_eq read
  rcases fuses.origin with isEmpty | sameOrigin
  · have untouched := empty_not_writes isEmpty cell
    rw [source_eq_none.mpr untouched, eq_comm, source_eq_none] at sameSource
    rw [blitFrom_other untouched, blitFrom_other sameSource]
    exact same
  · cases isOrigin : srcReg.origin with
    | none =>
      simp only [blitFrom, sameOrigin, isOrigin]
      exact same
    | some origin =>
      simp only [blitFrom, sameOrigin, isOrigin]
      rw [fused.blit_eq, srcReg.blit_eq, sameSource, same]

/-- Fused to all regions of a tensor, a region reads the value of the tensor. -/
theorem rasterValue_fused {fuseUtils : FuseWrap} (sound : fuseUtils.Sound) {input : Region}
    (matched : ∀ reg ∈ regions, fuseUtils.match reg input = true)
    (read : input.source cell = some middle) :
    rasterValue (regions.map fun reg => fuseUtils.apply reg input) memory cell =
      rasterValue regions memory middle := by
  have start : (0 : Int → Value) cell = (0 : Int → Value) middle := rfl
  rw [rasterValue_eq, rasterValue_eq]
  suffices general :
      ∀ target target' : Int → Value, target cell = target' middle →
        (regions.map fun reg => fuseUtils.apply reg input).foldl (blitFrom memory) target cell =
          regions.foldl (blitFrom memory) target' middle from
    general 0 0 start
  clear start
  induction regions with
  | nil =>
    intro target target' same
    exact same
  | cons reg rest ih =>
    intro target target' same
    rw [map_cons, foldl_cons, foldl_cons]
    have fuses := sound reg input (matched reg mem_cons_self)
    apply ih
    · exact fun other member => matched other (mem_cons_of_mem _ member)
    · exact fuses.blitFrom_eq read same

end

end Mnn.Core.Raster
