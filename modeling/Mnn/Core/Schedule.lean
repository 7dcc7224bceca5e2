import Mnn.Foundation.BackwardNeeds

/-!
# Schedules of paths

A path names tensors or operators where the computation starts, and those where it
ends.  `generateScheduleGraph` keeps the operators that the path needs: it marks tensors
from the end of the path on, and scans the operators until nothing is marked any more.
-/

namespace Mnn.Core.Schedule

open Mnn.Foundation
open List
open Function

/-! ## Nets and paths -/

/-- An operator of a net with `count` tensors. -/
structure Op (count : Nat) where
  name : Option String
  inputIndexes : List (Fin count)
  outputIndexes : List (Fin count)
  deriving DecidableEq

structure Net where
  tensorName : List String
  oplists : List (Op tensorName.length)

inductive Mode
  | Op
  | Tensor
  deriving DecidableEq

structure Path where
  inputs : List String
  outputs : List String
  mode : Mode

abbrev Net.TensorIndex (net : Net) : Type := Fin net.tensorName.length

abbrev Net.OpIndex (net : Net) : Type := Fin net.oplists.length

abbrev Net.op (net : Net) (i : net.OpIndex) : Op net.tensorName.length := net.oplists.get i

def Op.isNamed {count : Nat} (op : Op count) (names : List String) : Bool :=
  match op.name with
  | none => false
  | some name => decide (name ∈ names)

/-! ## Masks -/

/-- `0`, `1` and `2` of the tensor mask. -/
inductive Mark
  | notSet
  | output
  | input
  deriving DecidableEq

abbrev TensorMask (net : Net) : Type := net.TensorIndex → Mark

structure Masks (net : Net) where
  tensorMask : TensorMask net
  opMask : net.OpIndex → Bool

variable {net : Net}

/-- Inputs stay inputs. -/
def markOutputs (tensorMask : TensorMask net) (indexes : List net.TensorIndex) : TensorMask net :=
  indexes.foldl (fun tensorMask index =>
      if tensorMask index ≠ .input then
        update tensorMask index .output
      else
        tensorMask)
    tensorMask

def markInputs (tensorMask : TensorMask net) (indexes : List net.TensorIndex) : TensorMask net :=
  indexes.foldl (fun tensorMask index => update tensorMask index .input) tensorMask

def tensorStatus (path : Path) (i : net.TensorIndex) : Mark :=
  let name := net.tensorName.get i
  let mark := if name ∈ path.outputs then Mark.output else .notSet
  if name ∈ path.inputs then .input else mark

def opStatus (path : Path) (masks : Masks net) (i : net.OpIndex) : Masks net :=
  let op := net.op i
  let masks :=
    if op.isNamed path.outputs then
      { opMask := update masks.opMask i true
        tensorMask := markOutputs (markOutputs masks.tensorMask op.outputIndexes) op.inputIndexes }
    else
      masks
  if op.isNamed path.inputs then
    { opMask := update masks.opMask i true
      tensorMask := markInputs masks.tensorMask op.outputIndexes }
  else
    masks

/-- The initial status. -/
def initial (net : Net) (path : Path) : Masks net :=
  match path.mode with
  | .Tensor => { tensorMask := tensorStatus path, opMask := fun _ => false }
  | .Op =>
    (List.finRange net.oplists.length).foldl (opStatus path)
      { tensorMask := fun _ => .notSet, opMask := fun _ => false }

/-! ## Scans -/

/-- The masks after one operator of a scan, and whether it was kept just now. -/
def scanOp (masks : Masks net) (i : net.OpIndex) : Masks net × Bool :=
  let op := net.op i
  if masks.opMask i then
    (masks, false)
  else if op.outputIndexes.any fun index => masks.tensorMask index == .output then
    ({ opMask := update masks.opMask i true
       tensorMask := markOutputs masks.tensorMask op.inputIndexes }, true)
  else
    (masks, false)

def scanFrom (indexes : List net.OpIndex) (masks : Masks net) : Masks net × Bool := indexes.foldl
    (fun (masks, change) i =>
      let (masks, changed) := scanOp masks i
      (masks, change || changed))
    (masks, false)

def scan (masks : Masks net) : Masks net × Bool := scanFrom (List.finRange net.oplists.length) masks

/-- Scans until nothing changes, unless there are more than `fuel`. -/
def scans : Nat → Masks net → Option (Masks net)
  | 0, _ => none
  | fuel + 1, masks =>
    match scan masks with
    | (masks, true) => scans fuel masks
    | (masks, false) => some masks

def generateScheduleGraph (fuel : Nat) (net : Net) (path : Path) :
    Option (List (Op net.tensorName.length)) :=
  if path.inputs = [] ∧ path.outputs = [] then
    some net.oplists
  else
    (scans fuel (initial net path)).map fun masks =>
      ((List.finRange net.oplists.length).filter masks.opMask).map net.op

/-! ## What a path needs -/

variable (net)

/-- Tensors where the path starts. -/
def CutOff (path : Path) (index : net.TensorIndex) : Prop :=
  match path.mode with
  | .Tensor => net.tensorName.get index ∈ path.inputs
  | .Op => ∃ i, (net.op i).isNamed path.inputs ∧ index ∈ (net.op i).outputIndexes

/-- Tensors where the path ends. -/
def Requested (path : Path) (index : net.TensorIndex) : Prop :=
  match path.mode with
  | .Tensor => net.tensorName.get index ∈ path.outputs
  | .Op =>
    ∃ i, (net.op i).isNamed path.outputs ∧
      (index ∈ (net.op i).outputIndexes ∨ index ∈ (net.op i).inputIndexes)

/-- Operators that an operator path names. -/
def Named (path : Path) (i : net.OpIndex) : Prop :=
  path.mode = .Op ∧ ((net.op i).isNamed path.inputs ∨ (net.op i).isNamed path.outputs)

/-- Tensors that are needed between both. -/
abbrev Needed (path : Path) : net.TensorIndex → Prop :=
  BackwardNeeds.Needed (fun i => (net.op i).inputIndexes)
    (fun i => (net.op i).outputIndexes) (CutOff net path) (Requested net path)

/-- Operators from which the end of the path is reached, from behind its start on. -/
abbrev Reaches (path : Path) : net.OpIndex → Prop :=
  BackwardNeeds.Reaches (fun i => (net.op i).inputIndexes)
    (fun i => (net.op i).outputIndexes) (CutOff net path) (Requested net path)

instance (path : Path) : DecidablePred (CutOff net path) := fun index =>
  match isMode : path.mode with
  | .Tensor =>
    decidable_of_iff (net.tensorName.get index ∈ path.inputs) (by rw [CutOff, isMode])
  | .Op =>
    decidable_of_iff (∃ i, (net.op i).isNamed path.inputs ∧ index ∈ (net.op i).outputIndexes)
      (by rw [CutOff, isMode])

/-!
# What a path keeps

The scans of `generateScheduleGraph` end, and what is kept then is what the path needs.
-/

variable {net : Net} {path : Path}

theorem markOutputs_apply (tensorMask : TensorMask net) (indexes : List net.TensorIndex)
    (index : net.TensorIndex) :
    markOutputs tensorMask indexes index =
      if index ∈ indexes ∧ tensorMask index ≠ .input then .output
      else tensorMask index := by
  induction indexes generalizing tensorMask with
  | nil => simp [markOutputs]
  | cons first indexes ih =>
    have isStep :
        markOutputs tensorMask (first :: indexes) = markOutputs (if tensorMask first ≠ .input then
              update tensorMask first .output
            else
              tensorMask)
            indexes :=
      rfl
    rw [isStep, ih]
    by_cases same : index = first
    · subst same
      by_cases isInput : tensorMask index = .input <;> simp [isInput]
    · have sameMark : (if tensorMask first ≠ .input then
              update tensorMask first .output
            else
              tensorMask) index = tensorMask index := by
        split
        · exact update_of_ne same ..
        · rfl
      rw [sameMark]
      simp [same]

theorem markInputs_apply (tensorMask : TensorMask net) (indexes : List net.TensorIndex)
    (index : net.TensorIndex) :
    markInputs tensorMask indexes index =
      if index ∈ indexes then .input else tensorMask index := by
  induction indexes generalizing tensorMask with
  | nil => simp [markInputs]
  | cons first indexes ih =>
    have isStep :
        markInputs tensorMask (first :: indexes) =
          markInputs (update tensorMask first .input) indexes :=
      rfl
    rw [isStep, ih]
    by_cases same : index = first
    · subst same
      simp
    · simp [same]

/-! ## The initial status -/

theorem foldl_iff_exists {State Item : Type} {step : State → Item → State}
    {holds : State → Prop} {adds : Item → Prop}
    (isStep : ∀ state item, holds (step state item) ↔ holds state ∨ adds item)
    (items : List Item) (state : State) :
    holds (items.foldl step state) ↔ holds state ∨ ∃ item ∈ items, adds item := by
  induction items generalizing state with
  | nil => simp
  | cons item items ih =>
    rw [foldl_cons, ih, isStep, or_assoc]
    simp

variable (masks : Masks net)

variable (i : net.OpIndex)

theorem opStatus_input (index : net.TensorIndex) :
    (opStatus path masks i).tensorMask index = .input ↔ masks.tensorMask index = .input ∨
        (net.op i).isNamed path.inputs ∧ index ∈ (net.op i).outputIndexes := by
  unfold opStatus
  by_cases isSource : (net.op i).isNamed path.inputs <;>
    by_cases isSink : (net.op i).isNamed path.outputs <;>
    simp only [isSource, isSink, if_true, if_false, markInputs_apply,
      markOutputs_apply, true_and, false_and, or_false, Bool.false_eq_true] <;>
    grind

theorem opStatus_set (index : net.TensorIndex) :
    (opStatus path masks i).tensorMask index ≠ .notSet ↔ masks.tensorMask index ≠ .notSet ∨
        ((net.op i).isNamed path.inputs ∧ index ∈ (net.op i).outputIndexes ∨
          (net.op i).isNamed path.outputs ∧ (index ∈ (net.op i).outputIndexes ∨
              index ∈ (net.op i).inputIndexes)) := by
  unfold opStatus
  by_cases isSource : (net.op i).isNamed path.inputs <;>
    by_cases isSink : (net.op i).isNamed path.outputs <;>
    simp only [isSource, isSink, if_true, if_false, markInputs_apply,
      markOutputs_apply, true_and, false_and, or_false, false_or,
      Bool.false_eq_true] <;>
    grind

theorem opStatus_opMask (i j : net.OpIndex) :
    (opStatus path masks i).opMask j = true ↔ masks.opMask j = true ∨ i = j ∧
          ((net.op i).isNamed path.inputs ∨ (net.op i).isNamed path.outputs) := by
  unfold opStatus
  by_cases isSource : (net.op i).isNamed path.inputs <;>
    by_cases isSink : (net.op i).isNamed path.outputs <;>
    simp only [isSource, isSink, if_true, if_false, update_apply,
      Bool.false_eq_true, or_false, or_true, and_true, and_false] <;>
    grind

/-- Inputs of the path that its operators do not need. -/
def IsSource (net : Net) (path : Path) (i : net.OpIndex) : Prop :=
  path.mode = .Op ∧ (net.op i).isNamed path.inputs ∧ ¬ (net.op i).isNamed path.outputs

/-- What is marked while the operators are scanned. -/
structure Marked (path : Path) (masks : Masks net) : Prop where
  input_iff : ∀ index, masks.tensorMask index = .input ↔ CutOff net path index
  needed : ∀ index, masks.tensorMask index = .output → Needed net path index
  requested : ∀ index, Requested net path index → masks.tensorMask index ≠ .notSet
  kept : ∀ i, masks.opMask i = true → Named net path i ∨ Reaches net path i
  named : ∀ i, Named net path i → masks.opMask i = true
  reads :
    ∀ i, masks.opMask i = true → IsSource net path i ∨
        ∀ index ∈ (net.op i).inputIndexes, masks.tensorMask index ≠ .notSet

theorem marked_initial (net : Net) (path : Path) : Marked path (initial net path) := by
  cases isMode : path.mode with
  | Tensor =>
    have isInitial :
        initial net path = { tensorMask := tensorStatus path, opMask := fun _ => false } := by
      rw [initial, isMode]
    have isCut (index : net.TensorIndex) :
        CutOff net path index ↔ net.tensorName.get index ∈ path.inputs := by
      rw [CutOff, isMode]
    have isRequested (index : net.TensorIndex) :
        Requested net path index ↔ net.tensorName.get index ∈ path.outputs := by
      rw [Requested, isMode]
    rw [isInitial]
    refine
      { input_iff := fun index => ?_, needed := fun index isMarked => ?_,
        requested := fun index requested => ?_, kept := fun i isKept => ?_,
        named := fun i named => ?_, reads := fun i isKept => ?_ }
    · rw [isCut]
      show tensorStatus path index = _ ↔ _
      unfold tensorStatus
      grind
    · have isStatus : tensorStatus path index = .output := isMarked
      unfold tensorStatus at isStatus
      refine .asked ((isRequested index).mpr ?_) fun cut => ?_
      · grind
      · rw [isCut] at cut
        grind
    · rw [isRequested] at requested
      show tensorStatus path index ≠ _
      unfold tensorStatus
      grind
    · exact absurd isKept Bool.false_ne_true
    · exact absurd (isMode.symm.trans named.1) nofun
    · exact absurd isKept Bool.false_ne_true
  | Op =>
    have isInitial : initial net path = (List.finRange net.oplists.length).foldl (opStatus path)
            { tensorMask := fun _ => .notSet, opMask := fun _ => false } := by
      rw [initial, isMode]
    have input_iff (index : net.TensorIndex) :
        (initial net path).tensorMask index = .input ↔ CutOff net path index := by
      rw [isInitial, @foldl_iff_exists _ _ _
          (fun masks : Masks net => masks.tensorMask index = .input) _
          (fun masks i => @opStatus_input net path masks i index),
        CutOff, isMode]
      simp
    have set_iff (index : net.TensorIndex) :
        (initial net path).tensorMask index ≠ .notSet ↔
          CutOff net path index ∨ Requested net path index := by
      rw [isInitial, @foldl_iff_exists _ _ _
          (fun masks : Masks net => masks.tensorMask index ≠ .notSet) _
          (fun masks i => @opStatus_set net path masks i index),
        CutOff, Requested, isMode]
      simp [exists_or]
    have kept_iff (i : net.OpIndex) : (initial net path).opMask i = true ↔ Named net path i := by
      rw [isInitial, @foldl_iff_exists _ _ _ (fun masks : Masks net => masks.opMask i = true) _
          (fun masks j => @opStatus_opMask net path masks j i),
        Named, isMode]
      simp
    refine
      { input_iff := input_iff, needed := fun index isMarked => ?_,
        requested := fun index requested =>
          (set_iff index).mpr (Or.inr requested),
        kept := fun i isKept => Or.inl ((kept_iff i).mp isKept),
        named := fun i => (kept_iff i).mpr, reads := fun i isKept => ?_ }
    · have notCut : ¬ CutOff net path index := by
        rw [← input_iff, isMarked]
        exact nofun
      have isSet : (initial net path).tensorMask index ≠ .notSet := by
        rw [isMarked]
        exact nofun
      exact .asked (((set_iff index).mp isSet).resolve_left notCut) notCut
    · by_cases isSink : (net.op i).isNamed path.outputs
      · right
        intro index isRead
        rw [set_iff]
        right
        rw [Requested, isMode]
        exact ⟨i, isSink, Or.inr isRead⟩
      · left
        exact ⟨isMode, ((kept_iff i).mp isKept).2.resolve_right isSink, isSink⟩

/-! ## Scans -/

/-- An operator is skipped, or something it writes is marked and so it is kept. -/
theorem scanOp_cases :
    (scanOp masks i = (masks, false) ∧ (masks.opMask i = true ∨ ∀ index ∈ (net.op i).outputIndexes,
            masks.tensorMask index ≠ .output)) ∨
      scanOp masks i =
          ({ opMask := update masks.opMask i true
             tensorMask :=
              markOutputs masks.tensorMask (net.op i).inputIndexes }, true) ∧
        masks.opMask i = false ∧ ∃ index ∈ (net.op i).outputIndexes,
            masks.tensorMask index = .output := by
  unfold scanOp
  by_cases isKept : masks.opMask i = true
  · left
    exact ⟨if_pos isKept, Or.inl isKept⟩
  · simp only [isKept, Bool.false_eq_true, if_false, any_eq_true, beq_iff_eq]
    by_cases isMarked : ∃ index ∈ (net.op i).outputIndexes, masks.tensorMask index = .output
    · right
      exact ⟨if_pos isMarked, trivial, isMarked⟩
    · left
      refine ⟨if_neg isMarked, Or.inr fun index isWritten same => ?_⟩
      exact isMarked ⟨index, isWritten, same⟩

theorem marked_scanOp {masks : Masks net} (marked : Marked path masks)
    (i : net.OpIndex) : Marked path (scanOp masks i).1 := by
  rcases scanOp_cases masks i with ⟨same, -⟩ | ⟨changed, -, result, isWritten, isMarked⟩
  · rw [same]
    exact marked
  · have reaches : Reaches net path i := ⟨result, isWritten, marked.needed result isMarked⟩
    have stays (index : net.TensorIndex) (isSet : masks.tensorMask index ≠ .notSet) :
        markOutputs masks.tensorMask (net.op i).inputIndexes index ≠ .notSet := by
      rw [markOutputs_apply]
      grind
    rw [changed]
    refine
      { input_iff := fun index => ?_, needed := fun index isNew => ?_,
        requested := fun index requested =>
          stays index (marked.requested index requested),
        kept := fun j isKept => ?_, named := fun j named => ?_,
        reads := fun j isKept => ?_ }
    · rw [← marked.input_iff]
      show markOutputs _ _ _ = _ ↔ _
      rw [markOutputs_apply]
      grind
    · by_cases isOld : masks.tensorMask index = .output
      · exact marked.needed index isOld
      · have isNew' : markOutputs masks.tensorMask (net.op i).inputIndexes index = .output := isNew
        rw [markOutputs_apply] at isNew'
        have isRead : index ∈ (net.op i).inputIndexes ∧ masks.tensorMask index ≠ .input := by
          grind
        refine (reaches.cut_or_needed isRead.1).resolve_left fun cut => ?_
        exact isRead.2 ((marked.input_iff index).mpr cut)
    · by_cases same : j = i
      · rw [same]
        exact Or.inr reaches
      · refine marked.kept j ?_
        exact (update_of_ne same _ _).symm.trans isKept
    · show update _ _ _ _ = _
      rw [update_apply]
      split
      · rfl
      · exact marked.named j named
    · by_cases same : j = i
      · subst same
        right
        intro index isRead
        show markOutputs _ _ _ ≠ _
        rw [markOutputs_apply]
        grind
      · have wasKept : masks.opMask j = true := (update_of_ne same _ _).symm.trans isKept
        rcases marked.reads j wasKept with isSource | areSet
        · exact Or.inl isSource
        · exact Or.inr fun index isRead => stays index (areSet index isRead)

variable (indexes : List net.OpIndex)

theorem scanFrom_cons (masks : Masks net) :
    scanFrom (i :: indexes) masks = ((scanFrom indexes (scanOp masks i).1).1,
        (scanOp masks i).2 || (scanFrom indexes (scanOp masks i).1).2) := by
  have general (indexes : List net.OpIndex) (masks : Masks net) (change : Bool) : indexes.foldl
          (fun (masks, change) i =>
            let (masks, changed) := scanOp masks i
            (masks, change || changed))
          (masks, change) =
        ((scanFrom indexes masks).1, change || (scanFrom indexes masks).2) := by
    induction indexes generalizing masks change with
    | nil => simp [scanFrom]
    | cons first indexes ih =>
      rw [scanFrom, foldl_cons, foldl_cons]
      simp only [ih, Bool.false_or, Bool.or_assoc]
  rw [scanFrom, foldl_cons]
  simp only [general, Bool.false_or]

theorem marked_scanFrom {masks : Masks net}
    (marked : Marked path masks) : Marked path (scanFrom indexes masks).1 := by
  induction indexes generalizing masks with
  | nil => exact marked
  | cons i indexes ih =>
    rw [scanFrom_cons]
    exact ih (marked_scanOp marked i)

/-- If nothing changes, then no operator has to be kept any more. -/
theorem scanFrom_same (masks : Masks net) (same : (scanFrom indexes masks).2 = false) :
    (scanFrom indexes masks).1 = masks ∧ ∀ i ∈ indexes, masks.opMask i = true ∨
          ∀ index ∈ (net.op i).outputIndexes, masks.tensorMask index ≠ .output := by
  induction indexes generalizing masks with
  | nil => exact ⟨rfl, fun i isIn => nomatch isIn⟩
  | cons i indexes ih =>
    rw [scanFrom_cons] at same ⊢
    rw [Bool.or_eq_false_iff] at same
    rcases scanOp_cases masks i with ⟨isSkipped, isDone⟩ | ⟨changed, -⟩
    · rw [isSkipped] at same ⊢
      rcases ih masks same.2 with ⟨sameMasks, areDone⟩
      refine ⟨sameMasks, fun j isIn => ?_⟩
      rcases mem_cons.mp isIn with rfl | isIn
      · exact isDone
      · exact areDone j isIn
    · rw [changed] at same
      exact absurd same.1 nofun

/-! ## The scans end -/

/-- Operators that are not kept yet. -/
def openOps (masks : Masks net) : Finset net.OpIndex :=
  Finset.univ.filter fun i => masks.opMask i = false

theorem mem_openOps {masks : Masks net} {i : net.OpIndex} :
    i ∈ openOps masks ↔ masks.opMask i = false := by
  simp [openOps]

theorem openOps_scanOp :
    openOps (scanOp masks i).1 ⊆ openOps masks ∧ ((scanOp masks i).2 = true →
        openOps (scanOp masks i).1 ⊂ openOps masks) := by
  rcases scanOp_cases masks i with ⟨same, -⟩ | ⟨changed, isOpen, -⟩
  · rw [same]
    exact ⟨Finset.Subset.refl _, nofun⟩
  · rw [changed]
    have fewer : openOps
            { opMask := update masks.opMask i true
              tensorMask :=
                markOutputs masks.tensorMask (net.op i).inputIndexes } =
          (openOps masks).erase i := by
      ext j
      rw [Finset.mem_erase, mem_openOps, mem_openOps]
      show update _ _ _ _ = _ ↔ _
      rw [update_apply]
      grind
    rw [fewer]
    exact ⟨Finset.erase_subset _ _, fun _ => Finset.erase_ssubset (mem_openOps.mpr isOpen)⟩

theorem openOps_scanFrom (masks : Masks net) :
    openOps (scanFrom indexes masks).1 ⊆ openOps masks ∧ ((scanFrom indexes masks).2 = true →
        openOps (scanFrom indexes masks).1 ⊂ openOps masks) := by
  induction indexes generalizing masks with
  | nil => exact ⟨Finset.Subset.refl _, nofun⟩
  | cons i indexes ih =>
    rw [scanFrom_cons]
    have first := openOps_scanOp masks i
    have others := ih (scanOp masks i).1
    refine ⟨others.1.trans first.1, fun isChanged => ?_⟩
    rcases (Bool.or_eq_true _ _).mp isChanged with isFirst | isOther
    · exact others.1.trans_ssubset (first.2 isFirst)
    · exact (others.2 isOther).trans_subset first.1

/-- Nothing would change any more. -/
def Stable (masks : Masks net) : Prop :=
  ∀ i, masks.opMask i = true ∨ ∀ index ∈ (net.op i).outputIndexes, masks.tensorMask index ≠ .output

theorem scans_ends (marked : Marked path masks) :
    ∃ final : Masks net, Marked path final ∧ Stable final ∧
        ∀ fuel, (openOps masks).card < fuel → scans fuel masks = some final := by
  induction isCount : (openOps masks).card using Nat.strong_induction_on generalizing masks with
  | _ count ih =>
    have isScan (fuel : Nat) :
        scans (fuel + 1) masks =
          if (scan masks).2 then scans fuel (scan masks).1
          else some (scan masks).1 := by
      rw [scans]
      rcases scan masks with ⟨after, change⟩
      cases change <;> rfl
    cases isChanged : (scan masks).2 with
    | true =>
      have fewer : (openOps (scan masks).1).card < count := by
        rw [← isCount]
        exact Finset.card_lt_card ((openOps_scanFrom _ masks).2 isChanged)
      rcases ih _ fewer (scan masks).1 (marked_scanFrom _ marked) rfl with
        ⟨final, isMarked, stable, ends⟩
      refine ⟨final, isMarked, stable, fun fuel enough => ?_⟩
      cases fuel with
      | zero => cases enough
      | succ fuel =>
        rw [isScan, isChanged, if_pos rfl]
        exact ends fuel (Nat.lt_of_lt_of_le fewer (Nat.le_of_lt_succ enough))
    | false =>
      rcases scanFrom_same _ masks isChanged with ⟨same, areDone⟩
      refine ⟨masks, marked, fun i => areDone i (mem_finRange i), fun fuel enough => ?_⟩
      cases fuel with
      | zero => cases enough
      | succ fuel =>
        rw [isScan, isChanged, if_neg Bool.false_ne_true]
        exact congrArg some same

theorem Marked.complete {masks : Masks net} (marked : Marked path masks)
    (stable : Stable masks) {index : net.TensorIndex}
    (needed : Needed net path index) : masks.tensorMask index = .output := by
  have isOutput (index : net.TensorIndex) (notCut : ¬ CutOff net path index)
      (isSet : masks.tensorMask index ≠ .notSet) :
      masks.tensorMask index = .output := by
    rw [← marked.input_iff] at notCut
    cases isMark : masks.tensorMask index with
    | notSet => exact absurd isMark isSet
    | output => rfl
    | input => exact absurd isMark notCut
  refine @BackwardNeeds.Needed.mem_of_closed _ _ _ _ _ _
      { index | masks.tensorMask index = .output } ?_ ?_ _ needed
  · intro place requested notCut
    exact isOutput place notCut (marked.requested place requested)
  · intro i result isWritten isMarked place isRead notCut
    have isKept : masks.opMask i = true :=
      (stable i).resolve_right fun none => none result isWritten isMarked
    rcases marked.reads i isKept with isSource | areSet
    · have cut : CutOff net path result := by
        rw [CutOff, isSource.1]
        exact ⟨i, isSource.2.1, isWritten⟩
      have isInput := (marked.input_iff result).mpr cut
      exact absurd (isInput.symm.trans isMarked) nofun
    · exact isOutput place notCut (areSet place isRead)

/-- What a path keeps: all operators if it is empty, or those that it needs. -/
def Kept (net : Net) (path : Path) (i : net.OpIndex) : Prop :=
  (path.inputs = [] ∧ path.outputs = []) ∨ Named net path i ∨ Reaches net path i

/--
The scans end, after at most one for each operator and one more.  What is kept is what
the path needs, in the order of the net.  What a kept operator reads is cut off, has no
producer, or has one that is kept, unless the path starts with the operator.
-/
theorem generateScheduleGraph_keeps (net : Net) (path : Path) :
    ∃ kept : net.OpIndex → Bool, (∀ extra,
          generateScheduleGraph (net.oplists.length + 1 + extra) net path =
            some (((List.finRange net.oplists.length).filter kept).map net.op)) ∧
        (∀ i, kept i = true ↔ Kept net path i) ∧ ∀ i, kept i = true →
            ∀ index ∈ (net.op i).inputIndexes, IsSource net path i ∨ CutOff net path index ∨
                (∀ j, index ∉ (net.op j).outputIndexes) ∨
                  ∃ j, kept j = true ∧ index ∈ (net.op j).outputIndexes := by
  by_cases isEmpty : path.inputs = [] ∧ path.outputs = []
  · refine ⟨fun _ => true, fun extra => ?_, fun i => ?_, fun i _ index _ => ?_⟩
    · rw [generateScheduleGraph, if_pos isEmpty, filter_true]
      exact congrArg some ((ofFn_get net.oplists).symm.trans ofFn_eq_map)
    · exact ⟨fun _ => Or.inl isEmpty, fun _ => rfl⟩
    · right
      right
      by_cases isProduced : ∃ j, index ∈ (net.op j).outputIndexes
      · exact Or.inr (isProduced.imp fun j isWritten => ⟨rfl, isWritten⟩)
      · exact Or.inl (not_exists.mp isProduced)
  · rcases scans_ends (initial net path) (marked_initial net path) with
      ⟨final, marked, stable, ends⟩
    refine ⟨final.opMask, fun extra => ?_, fun i => ?_, fun i isKept index isRead => ?_⟩
    · have enough : (openOps (initial net path)).card < net.oplists.length + 1 + extra := by
        have atMost := Finset.card_le_univ (openOps (initial net path))
        rw [Fintype.card_fin] at atMost
        omega
      rw [generateScheduleGraph, if_neg isEmpty, ends _ enough]
      rfl
    · constructor
      · intro isKept
        exact Or.inr (marked.kept i isKept)
      · intro isKept
        rcases isKept.resolve_left isEmpty with named | ⟨result, isWritten, needed⟩
        · exact marked.named i named
        · exact (stable i).resolve_right fun none =>
              none result isWritten (marked.complete stable needed)
    · rcases marked.reads i isKept with isSource | areSet
      · exact Or.inl isSource
      · right
        cases isMark : final.tensorMask index with
        | notSet => exact absurd isMark (areSet index isRead)
        | input => exact Or.inl ((marked.input_iff index).mp isMark)
        | output =>
          right
          by_cases isProduced : ∃ j, index ∈ (net.op j).outputIndexes
          · right
            rcases isProduced with ⟨j, isWritten⟩
            refine ⟨j, ?_, isWritten⟩
            exact (stable j).resolve_right fun none => none index isWritten isMark
          · exact Or.inl (not_exists.mp isProduced)

/-- Three operators in a row. -/
def chain : Net where
  tensorName := ["image", "first", "second", "third"]
  oplists := [⟨some "conv1", [0], [1]⟩, ⟨some "conv2", [1], [2]⟩, ⟨some "relu", [2], [3]⟩]

/-- What the source of a path reads is neither cut off nor produced. -/
theorem source_not_produced : ¬ ∀ (net : Net) (path : Path) (fuel : Nat)
        (ops : List (Op net.tensorName.length)),
        generateScheduleGraph fuel net path = some ops → ∀ op ∈ ops, ∀ index ∈ op.inputIndexes,
            CutOff net path index ∨ (∀ producer ∈ net.oplists, index ∉ producer.outputIndexes) ∨
                ∃ producer ∈ ops, index ∈ producer.outputIndexes := by
  intro isProduced
  have isRun :
      generateScheduleGraph 4 chain ⟨["conv2"], ["relu"], .Op⟩ =
        some (chain.oplists.drop 1) := by
    decide
  have isRead := isProduced _ _ _ _ isRun (chain.op ⟨1, by decide⟩) (by decide) ⟨1, by decide⟩
      (by decide)
  rcases isRead with cut | isFree | isKept
  · exact absurd cut (by decide)
  · exact absurd isFree (by decide)
  · exact absurd isKept (by decide)

end Mnn.Core.Schedule
