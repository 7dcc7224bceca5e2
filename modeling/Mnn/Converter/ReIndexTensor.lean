import Mnn.Foundation.Naming

/-!
# Numbering and naming tensors again

`ReIndexTensor` numbers the tensors that operators name, and leaves out the
others.  It then makes names for operators and tensors that have none, or one
which is taken.
-/

namespace Mnn.Converter.ReIndexTensor

open Mnn.Foundation
open List
open Naming

variable {OpType Parameters : Type}

/-- An operator without its name; a negative index is an input that is left out. -/
structure Node (OpType Parameters : Type) where
  type : OpType
  main : Parameters
  inputIndexes : List Int
  outputIndexes : List Nat
  deriving DecidableEq

structure OpT (OpType Parameters : Type) extends Node OpType Parameters where
  name : String

structure TensorDescribeT where
  name : String
  index : Int

structure NetT (OpType Parameters : Type) where
  oplists : List (OpT OpType Parameters)
  tensorName : List String
  outputName : List String
  extraTensorDescribe : List TensorDescribeT

/-- A net whose indexes are those of tensors. -/
structure ValidNet (OpType Parameters : Type) extends NetT OpType Parameters where
  inputs : ∀ op ∈ oplists, ∀ t ∈ op.inputIndexes, t < tensorName.length
  outputs : ∀ op ∈ oplists, ∀ t ∈ op.outputIndexes, t < tensorName.length

def reIndex (renumber : Nat → Nat) (index : Int) : Int :=
  if index < 0 then index else renumber index.toNat

@[simp]
theorem reIndex_natCast (renumber : Nat → Nat) (t : Nat) : reIndex renumber t = renumber t :=
  if_neg (Int.not_lt.mpr (Int.natCast_nonneg t))

def Node.reIndex (renumber : Nat → Nat) (op : Node OpType Parameters) : Node OpType Parameters :=
  { op with
    inputIndexes := op.inputIndexes.map (ReIndexTensor.reIndex renumber)
    outputIndexes := op.outputIndexes.map renumber }

namespace NetT

variable (net : NetT OpType Parameters)

def tensorValid (t : Nat) : Bool :=
  net.oplists.any fun op => op.inputIndexes.contains (t : Int) || op.outputIndexes.contains t

def useful : List Nat := (range net.tensorName.length).filter net.tensorValid

def usefulTensorIndexMap (t : Nat) : Nat := net.useful.idxOf t

def usefulTensorName : List String := net.useful.map fun t => net.tensorName.getD t ""

/-- The index of a description, by the first tensor of its name. -/
def describedIndex (describe : TensorDescribeT) : Int :=
  (net.tensorName.idxOf? describe.name).elim (-1) Nat.cast

/-- The net after its tensors have been numbered. -/
def reIndexed : NetT OpType Parameters where
  oplists := net.oplists.map fun op => { op with toNode := op.reIndex net.usefulTensorIndexMap }
  tensorName := net.usefulTensorName
  outputName := net.outputName
  extraTensorDescribe := net.extraTensorDescribe.filterMap fun describe =>
    let index := net.describedIndex describe
    if 0 ≤ index ∧ index.toNat ∈ net.useful then
      some { describe with index := net.usefulTensorIndexMap index.toNat }
    else none

variable (EnumNameOpType : OpType → String)

def opName (i : Nat) : String := (net.oplists[i]?).elim "" fun op => op.name

/-- The name made for an operator. -/
def defaultName (i : Nat) : String :=
  (net.oplists[i]?).elim "" fun op => EnumNameOpType op.type ++ toString i

def nameOf (t : Nat) : String := net.tensorName.getD t ""

/-- The names of operators and of tensors, after the loop over the operators. -/
def checkNames : Naming String × Naming String :=
  net.oplists.zipIdx.foldl
    (fun names place =>
      (names.1.check "" (net.defaultName EnumNameOpType) place.2,
        place.1.outputIndexes.foldl (check "" toString) names.2))
    ({ name := net.opName, taken := [] }, { name := net.nameOf, taken := [] })

def renamed : NetT OpType Parameters :=
  let names := net.checkNames EnumNameOpType
  { net with
    oplists := net.oplists.zipIdx.map fun place => { place.1 with name := names.1.name place.2 }
    tensorName := (range net.tensorName.length).map names.2.name }

def onExecute : NetT OpType Parameters := net.reIndexed.renamed EnumNameOpType

/-- The tensors that operators write, in turn. -/
def written : List Nat := net.oplists.flatMap fun op => op.outputIndexes

/-- A name is that of one tensor, which is `t`. -/
def Names (name : String) (t : Nat) : Prop := ∀ u, net.tensorName[u]? = some name ↔ u = t

end NetT

/-- The graph is the same up to a numbering of the tensors in use, and names are unique. -/
structure Reindexed (net after : NetT OpType Parameters) (renumber : Nat → Nat) : Prop where
  bijective : Set.BijOn renumber {t | net.tensorValid t} (Set.Iio after.tensorName.length)
  sameGraph : after.oplists.map OpT.toNode = net.oplists.map fun op => op.reIndex renumber
  sameOutputs : after.outputName = net.outputName
  nonempty : ∀ t ∈ after.written, after.nameOf t ≠ ""
  unique : Set.InjOn after.nameOf {t | t ∈ after.written}
  uniqueOps : (after.oplists.map OpT.name).Nodup
  outputs : ∀ name ∈ net.outputName, ∀ t, net.Names name t →
    net.tensorValid t ∧ after.tensorName[renumber t]? = some name

/-- The names that are made are not taken, and those of outputs are kept. -/
structure NamesFree (EnumNameOpType : OpType → String) (net : NetT OpType Parameters) : Prop where
  ops : Free "" (net.defaultName EnumNameOpType) { name := net.opName, taken := [] }
    (range net.oplists.length)
  tensors : Free "" toString { name := net.reIndexed.nameOf, taken := [] } net.reIndexed.written
  outputs : ∀ name ∈ net.outputName, ∀ t, net.Names name t → net.tensorValid t ∧
    (toString (net.usefulTensorIndexMap t) = name ∨
      Kept "" toString { name := net.reIndexed.nameOf, taken := [] } net.reIndexed.written
        (net.usefulTensorIndexMap t))

namespace NetT

variable (net : NetT OpType Parameters) (EnumNameOpType : OpType → String)

theorem checkNames_fst : (net.checkNames EnumNameOpType).1 =
    run "" (net.defaultName EnumNameOpType) { name := net.opName, taken := [] }
      (range net.oplists.length) := by
  rw [run, range_eq_range', ← zipIdx_map_snd 0 net.oplists, foldl_map]
  exact (foldl_hom Prod.fst fun _ _ => rfl).symm

theorem checkNames_snd : (net.checkNames EnumNameOpType).2 =
    run "" toString { name := net.nameOf, taken := [] } net.written := by
  rw [run, written, foldl_flatMap]
  conv_rhs => rw [← zipIdx_map_fst 0 net.oplists, foldl_map]
  exact (foldl_hom Prod.snd fun _ _ => rfl).symm

theorem renamed_nodes :
    (net.renamed EnumNameOpType).oplists.map OpT.toNode = net.oplists.map OpT.toNode := by
  conv_rhs => rw [← zipIdx_map_fst 0 net.oplists]
  rw [renamed, map_map, map_map]
  rfl

theorem renamed_names : (net.renamed EnumNameOpType).oplists.map OpT.name =
    (range net.oplists.length).map (net.checkNames EnumNameOpType).1.name := by
  rw [range_eq_range', ← zipIdx_map_snd 0 net.oplists, renamed, map_map, map_map]
  rfl

theorem written_eq : net.written = (net.oplists.map OpT.toNode).flatMap Node.outputIndexes := by
  simp [written, flatMap_map]

theorem nameOf_renamed {t : Nat} (isTensor : t < net.tensorName.length) :
    (net.renamed EnumNameOpType).nameOf t = (net.checkNames EnumNameOpType).2.name t := by
  simp [renamed, nameOf, isTensor]

theorem reIndexed_ops (i : Nat) : net.reIndexed.oplists[i]? =
    (net.oplists[i]?).map fun op => { op with toNode := op.reIndex net.usefulTensorIndexMap } :=
  getElem?_map

theorem reIndexed_opName : net.reIndexed.opName = net.opName := by
  funext i
  rw [opName, reIndexed_ops, opName]
  cases net.oplists[i]? <;> rfl

theorem reIndexed_defaultName :
    net.reIndexed.defaultName EnumNameOpType = net.defaultName EnumNameOpType := by
  funext i
  rw [defaultName, reIndexed_ops, defaultName]
  cases net.oplists[i]? <;> rfl

end NetT

namespace ValidNet

variable (net : ValidNet OpType Parameters) {t : Nat}

theorem mem_useful : t ∈ net.useful ↔ net.tensorValid t := by
  rw [NetT.useful, mem_filter, mem_range, and_iff_right_iff_imp, NetT.tensorValid, any_eq_true]
  rintro ⟨op, isOp, uses⟩
  rw [Bool.or_eq_true, contains_iff_mem, contains_iff_mem] at uses
  rcases uses with reads | writes
  · exact Int.ofNat_lt.mp (net.inputs op isOp t reads)
  · exact net.outputs op isOp t writes

theorem bijective :
    Set.BijOn net.usefulTensorIndexMap {t | net.tensorValid t} (Set.Iio net.useful.length) := by
  refine ⟨fun t valid => idxOf_lt_length_iff.mpr (net.mem_useful.mpr valid),
    fun t valid u _ same => (idxOf_inj (net.mem_useful.mpr valid)).mp same, fun i isPlace => ?_⟩
  exact ⟨net.useful[i], net.mem_useful.mp (getElem_mem isPlace),
    Nodup.idxOf_getElem (nodup_range.filter _) i isPlace⟩

/-- Numberings that give the same graph agree on the tensors in use. -/
theorem renumber_eq {renumber other : Nat → Nat} (valid : net.tensorValid t)
    (same : net.oplists.map (fun op => op.reIndex renumber) = net.oplists.map fun op => op.reIndex other) :
    renumber t = other t := by
  obtain ⟨op, isOp, uses⟩ := any_eq_true.mp valid
  have same := map_inj_left.mp same op isOp
  rw [Bool.or_eq_true, contains_iff_mem, contains_iff_mem] at uses
  rcases uses with reads | writes
  · have sameInput := map_inj_left.mp (congrArg Node.inputIndexes same) t reads
    rw [reIndex_natCast, reIndex_natCast] at sameInput
    exact Int.natCast_inj.mp sameInput
  · exact map_inj_left.mp (congrArg Node.outputIndexes same) t writes

variable (EnumNameOpType : OpType → String)

theorem sameGraph : (net.onExecute EnumNameOpType).oplists.map OpT.toNode =
    net.oplists.map fun op => op.reIndex net.usefulTensorIndexMap := by
  rw [NetT.onExecute, NetT.renamed_nodes, NetT.reIndexed, map_map]
  rfl

theorem written_onExecute : (net.onExecute EnumNameOpType).written = net.reIndexed.written := by
  rw [NetT.onExecute, NetT.written_eq, NetT.renamed_nodes, ← NetT.written_eq]

theorem written_reIndexed : net.reIndexed.written = net.written.map net.usefulTensorIndexMap := by
  simp [NetT.written, NetT.reIndexed, Node.reIndex, flatMap_map, map_flatMap]

theorem index_lt (valid : net.tensorValid t) :
    net.usefulTensorIndexMap t < net.reIndexed.tensorName.length := by
  rw [NetT.reIndexed, NetT.usefulTensorName, length_map]
  exact net.bijective.mapsTo valid

theorem lt_of_written (isWritten : t ∈ net.reIndexed.written) : t < net.reIndexed.tensorName.length := by
  rw [written_reIndexed] at isWritten
  obtain ⟨u, isWritten', rfl⟩ := mem_map.mp isWritten
  obtain ⟨op, isOp, writes⟩ := mem_flatMap.mp isWritten'
  exact net.index_lt (any_eq_true.mpr ⟨op, isOp, by simp [writes]⟩)

theorem nameOf_reIndexed (valid : net.tensorValid t) :
    net.reIndexed.nameOf (net.usefulTensorIndexMap t) = net.nameOf t := by
  have isUseful := net.mem_useful.mpr valid
  simp [NetT.nameOf, NetT.reIndexed, NetT.usefulTensorName, NetT.usefulTensorIndexMap,
    idxOf_lt_length_iff.mpr isUseful]

/-- The names that operators have written to, after the loop. -/
abbrev naming : Naming String :=
  run "" toString { name := net.reIndexed.nameOf, taken := [] } net.reIndexed.written

theorem nameOf_onExecute (isTensor : t < net.reIndexed.tensorName.length) :
    (net.onExecute EnumNameOpType).nameOf t = net.naming.name t := by
  rw [NetT.onExecute, NetT.nameOf_renamed _ _ isTensor, NetT.checkNames_snd]

theorem uniqueOps_iff : ((net.onExecute EnumNameOpType).oplists.map OpT.name).Nodup ↔
    Free "" (net.defaultName EnumNameOpType) { name := net.opName, taken := [] }
      (range net.oplists.length) := by
  have length : net.reIndexed.oplists.length = net.oplists.length := length_map ..
  rw [NetT.onExecute, NetT.renamed_names, nodup_map_iff_inj_on nodup_range, NetT.checkNames_fst,
    distinct_iff, length, NetT.reIndexed_opName, NetT.reIndexed_defaultName]

theorem unique_iff : Set.InjOn (net.onExecute EnumNameOpType).nameOf
      {t | t ∈ (net.onExecute EnumNameOpType).written} ↔
    Free "" toString { name := net.reIndexed.nameOf, taken := [] } net.reIndexed.written := by
  rw [written_onExecute, ← distinct_iff]
  have same : Set.EqOn (net.onExecute EnumNameOpType).nameOf net.naming.name
      {t | t ∈ net.reIndexed.written} :=
    fun t isWritten => net.nameOf_onExecute _ (net.lt_of_written isWritten)
  exact ⟨fun unique i isWritten j isWritten' equal => same.injOn_iff.mp unique isWritten isWritten' equal,
    fun unique => same.injOn_iff.mpr fun i isWritten j isWritten' equal => unique i isWritten j isWritten' equal⟩

theorem nonempty (isWritten : t ∈ (net.onExecute EnumNameOpType).written) :
    (net.onExecute EnumNameOpType).nameOf t ≠ "" := by
  rw [written_onExecute] at isWritten
  rw [net.nameOf_onExecute _ (net.lt_of_written isWritten)]
  exact name_ne_blank (fun _ => Nat.repr_ne_empty) isWritten

theorem keeps_iff {name : String} (valid : net.tensorValid t) (names : net.tensorName[t]? = some name) :
    (net.onExecute EnumNameOpType).tensorName[net.usefulTensorIndexMap t]? = some name ↔
      toString (net.usefulTensorIndexMap t) = name ∨
        Kept "" toString { name := net.reIndexed.nameOf, taken := [] } net.reIndexed.written
          (net.usefulTensorIndexMap t) := by
  have isTensor := net.index_lt valid
  have before : net.reIndexed.nameOf (net.usefulTensorIndexMap t) = name := by
    rw [nameOf_reIndexed net valid, NetT.nameOf, getD_eq_getElem?_getD, names, Option.getD_some]
  have after : (net.onExecute EnumNameOpType).tensorName[net.usefulTensorIndexMap t]? =
      some (net.naming.name (net.usefulTensorIndexMap t)) := by
    rw [NetT.onExecute, NetT.renamed, NetT.checkNames_snd]
    simp [isTensor]
  rw [after, Option.some_inj, ← before]
  exact name_run_eq_iff

end ValidNet

variable (net : ValidNet OpType Parameters) (EnumNameOpType : OpType → String)

theorem onExecute_reindexes_iff :
    (∃ renumber, Reindexed net.toNetT (net.onExecute EnumNameOpType) renumber) ↔
      NamesFree EnumNameOpType net.toNetT := by
  constructor
  · rintro ⟨renumber, reindexed⟩
    refine ⟨(net.uniqueOps_iff _).mp reindexed.uniqueOps, (net.unique_iff _).mp reindexed.unique,
      fun name isOutput t names => ?_⟩
    obtain ⟨valid, kept⟩ := reindexed.outputs name isOutput t names
    refine ⟨valid, (net.keeps_iff EnumNameOpType valid ((names t).mpr rfl)).mp ?_⟩
    rw [← net.renumber_eq valid (reindexed.sameGraph.symm.trans (net.sameGraph _))]
    exact kept
  · rintro ⟨ops, tensors, outputs⟩
    refine ⟨net.usefulTensorIndexMap, ?_, net.sameGraph _, rfl, fun t => net.nonempty _,
      (net.unique_iff _).mpr tensors, (net.uniqueOps_iff _).mpr ops, fun name isOutput t names => ?_⟩
    · have length : (net.onExecute EnumNameOpType).tensorName.length = net.useful.length := by
        simp [NetT.onExecute, NetT.renamed, NetT.reIndexed, NetT.usefulTensorName]
      rw [length]
      exact net.bijective
    · obtain ⟨valid, kept⟩ := outputs name isOutput t names
      exact ⟨valid, (net.keeps_iff _ valid ((names t).mpr rfl)).mpr kept⟩

/-- Two operators whose tensors have the same name, which is then made for the second one. -/
def sameNames : NetT Unit Unit where
  oplists := [0, 1].map fun t =>
    { type := (), main := (), inputIndexes := [], outputIndexes := [t], name := "" }
  tensorName := ["1", "1"]
  outputName := []
  extraTensorDescribe := []

theorem onExecute_not_unique : sameNames.written.Nodup ∧ ∀ renumber,
    ¬Reindexed sameNames (sameNames.onExecute fun _ => "Input") renumber := by
  refine ⟨by decide, fun renumber reindexed => ?_⟩
  have same := @reindexed.unique 0 (by decide) 1 (by decide) (by decide)
  cases same

end Mnn.Converter.ReIndexTensor
