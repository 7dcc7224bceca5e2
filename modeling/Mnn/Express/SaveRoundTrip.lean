import Mnn.Express.ExecuteOrder

/-!
# Saved graphs come back

Each expression is loaded with its op, its inputs up to the first that is absent, and the
names it has.
-/

namespace Mnn.Express

open Mnn.Core Mnn.Foundation BitFields DepthFirst
open List
open Option
open Nat

variable {Param : Type}

/-! ## Copies -/

/-- An input by the place of its expression in the order. -/
def place (order : List Nat) (input : Nat × Nat) : Nat × Nat := (order.idxOf input.1, input.2)

/-- The first dimension of an input is one where it was unknown. -/
def Info.resolved (info : Info) : Info where
  order := info.order
  dim := match info.dim with
    | dim :: rest => if dim = -1 then 1 :: rest else dim :: rest
    | [] => []
  type := revertDataType (convertDataType info.type)

/-- What becomes of a source. -/
def Source.Reloaded : Source Param → Source Param → Prop
  | .op param _, copy => ∃ name, copy = .op param name
  | .input info, copy => copy = .input info.resolved
  | .constant trainable info content, copy =>
    copy = .constant (trainable && !content.isEmpty) info content

/-- What becomes of an expression. -/
structure IsReloaded (order : List Nat) (expr copy : Expr Param) : Prop where
  source : expr.source.Reloaded copy.source
  inputs : copy.inputs = (expr.inputs.takeWhile Option.isSome).map (Option.map (place order))
  outputSize : copy.outputSize = expr.outputSize
  outputNames : ∀ (v : Nat) (name : String), expr.outputNames[v]? = some name →
    name ≠ "" → copy.outputNames[v]? = some name
  name : expr.name ≠ "" → copy.name = expr.name

theorem revertFormat_convertFormat (order : Dimensionformat) :
    revertFormat (convertFormat order) = order := by
  cases order <;> rfl

theorem saveBlob_spec {info : Info} {content : List Byte} (length : content.length = info.bytes) :
    (saveBlob info content).dims = info.dim ∧
      revertFormat (saveBlob info content).dataFormat = info.order ∧
      revertDataType (saveBlob info content).dataType = info.type ∧
      (saveBlob info content).pointer = if content.isEmpty then none else some content := by
  have whole : content.take info.bytes = content := by rw [← length, take_length]
  rw [saveBlob, whole]
  cases info.type with
  | _ => exact ⟨rfl, revertFormat_convertFormat info.order, rfl, rfl⟩

theorem createExpr_saveOp [OpKind Param] {exprs : List (Expr Param)} {order : List Nat}
    {i id : Nat} {expr : Expr Param} {inputs : List (Option (Nat × Nat))}
    (plain : match expr.source with
      | .op _ _ => True
      | .input _ => expr.inputs = [] ∧ expr.outputSize = 1
      | .constant _ info content =>
        expr.inputs = [] ∧ expr.outputSize = 1 ∧ content.length = info.bytes)
    (isInputs : expr.inputs = [] → inputs = []) :
    expr.source.Reloaded (createExpr (saveOp exprs order i id expr) inputs).source ∧
      (createExpr (saveOp exprs order i id expr) inputs).inputs = inputs ∧
      (createExpr (saveOp exprs order i id expr) inputs).outputNames.length = expr.outputSize ∧
      (createExpr (saveOp exprs order i id expr) inputs).name = opName i expr := by
  obtain ⟨source, exprInputs, outputNames, name⟩ := expr
  cases source with
  | op param ownName =>
    refine ⟨⟨_, rfl⟩, rfl, ?_, rfl⟩
    show (List.replicate (List.map _ (List.range _)).length "").length = _
    rw [length_replicate, length_map, length_range]
  | input info =>
    refine ⟨?_, (isInputs plain.1).symm, plain.2.symm, rfl⟩
    show Source.input ⟨revertFormat (convertFormat info.order), _, _⟩ = _
    rw [revertFormat_convertFormat]
    rfl
  | constant trainable info content =>
    obtain ⟨noInputs, one, length⟩ := plain
    obtain ⟨dims, format, type, pointer⟩ := saveBlob_spec length
    refine ⟨?_, (isInputs noInputs).symm, one.symm, rfl⟩
    show Source.constant _ (⟨revertFormat (saveBlob info content).dataFormat,
      (saveBlob info content).dims, revertDataType (saveBlob info content).dataType⟩ : Info)
      _ = _
    rw [format, dims, type, pointer]
    cases content with
    | nil => rfl
    | cons byte bytes =>
      show Source.constant _ info ((byte :: bytes).take info.bytes) = _
      rw [← length, take_length]
      rfl

/-! ## A run of the loader -/

section Loading

variable [OpKind Param] {graph : Graph Param} {outputs : List (Option (Nat × Nat))}

/-- What holds after the first so many ops. -/
structure LoadedUpTo (exprs : List (Expr Param)) (order : List Nat) (count : Nat)
    (state : LoadState Param) : Prop where
  length : state.exprs.length = count
  copies : ∀ i < count, ∀ (id : Nat) (expr : Expr Param), order[i]? = some id →
    exprs[id]? = some expr → ∃ copy, state.exprs[i]? = some copy ∧ IsReloaded order expr copy
  found : ∀ i < count, ∀ (id index : Nat), order[i]? = some id → index < outputSizeOf exprs id →
      state.variableMap.lookup ((before exprs order i + index : Nat) : Int) = some (i, index)
  missing : ∀ index : Int, index < 0 ∨ (before exprs order count : Nat) ≤ index →
    state.variableMap.lookup index = none
  covered : ∀ i < count, ∀ (id index : Nat), order[i]? = some id →
    index < outputSizeOf exprs id → (i, index) ∈ state.loadedVars

theorem findInputs_eq {order : List Nat} {count id : Nat} {expr : Expr Param}
    {state : LoadState Param} (loaded : LoadedUpTo graph.exprs order count state)
    (emitted : Emitted (producersOf graph.exprs) order) (isId : order[count]? = some id)
    (isExpr : graph.exprs[id]? = some expr) (inputs : List (Option (Nat × Nat)))
    (subset : inputs ⊆ expr.inputs) :
    findInputs state.variableMap (inputs.map (inputIndex graph.exprs order)) =
      (inputs.takeWhile Option.isSome).map (Option.map (place order)) := by
  induction inputs with
  | nil => rfl
  | cons input inputs ih =>
    have rest := ih fun other member => subset (mem_cons_of_mem _ member)
    cases input with
    | none =>
      rw [map_cons, findInputs, inputIndex, loaded.missing (-1) (Or.inl (by decide))]
      rfl
    | some input =>
      obtain ⟨producer, index⟩ := input
      have member := subset mem_cons_self
      obtain ⟨source, isSource, less⟩ :=
        graph.inside expr (mem_of_getElem? isExpr) producer index member
      obtain ⟨j, lessCount, isPlace⟩ := emitted.input_before isId
        (mem_producersOf.mpr ⟨expr, index, isExpr, member⟩)
      have number : inputIndex graph.exprs order (some (producer, index)) =
          ((before graph.exprs order j + index : Nat) : Int) := by
        rw [inputIndex, varIndexInfo_eq emitted.nodup isPlace]
      have isFound := loaded.found j lessCount producer index isPlace
        (by rwa [outputSizeOf_eq isSource])
      have isIndex : order.idxOf producer = j := by
        obtain ⟨inside, rfl⟩ := List.getElem?_eq_some_iff.mp isPlace
        exact emitted.nodup.idxOf_getElem j inside
      rw [map_cons, findInputs, number, isFound]
      dsimp only
      rw [rest, takeWhile_cons_of_pos rfl, map_cons, map_some, place, isIndex]

theorem zipIdx_map_range (f : Nat → Int) (count : Nat) :
    ((List.range count).map f).zipIdx = (List.range' 0 count).map fun w => (f w, w) := by
  rw [← range_eq_range']
  apply ext_getElem?
  intro i
  rw [getElem?_zipIdx, getElem?_map, getElem?_map]
  rcases lt_or_ge i count with less | le
  · rw [getElem?_range less, map_some, map_some, map_some, zero_add]
  · rw [getElem?_eq_none (by rwa [length_range])]
    rfl

theorem LoadedUpTo.succ {count id : Nat} {expr : Expr Param} {state : LoadState Param}
    (known : ∀ id ∈ getExecuteOrder graph.exprs outputs, ∃ expr, graph.exprs[id]? = some expr)
    (emitted : Emitted (producersOf graph.exprs) (getExecuteOrder graph.exprs outputs))
    (loaded : LoadedUpTo graph.exprs (getExecuteOrder graph.exprs outputs) count state)
    (isId : (getExecuteOrder graph.exprs outputs)[count]? = some id)
    (isExpr : graph.exprs[id]? = some expr) :
    LoadedUpTo graph.exprs (getExecuteOrder graph.exprs outputs) (count + 1)
      (loadOp (save graph.exprs outputs).tensorName state
        (saveOp graph.exprs (getExecuteOrder graph.exprs outputs) count id expr)) := by
  set order := getExecuteOrder graph.exprs outputs with isOrder
  set inputs := (expr.inputs.takeWhile Option.isSome).map (Option.map (place order)) with isInputs
  have isFound := findInputs_eq loaded emitted isId isExpr expr.inputs (List.Subset.refl _)
  rw [← isInputs] at isFound
  obtain ⟨source, sameInputs, size, name⟩ :=
    @createExpr_saveOp Param _ graph.exprs order count id expr inputs
      (graph.plain expr (mem_of_getElem? isExpr)) (fun none => by rw [isInputs, none]; rfl)
  set created := createExpr (saveOp graph.exprs order count id expr) inputs with isCreated
  have names : ∀ w, 0 ≤ w → w < 0 + expr.outputSize →
      (save graph.exprs outputs).tensorName[before graph.exprs order count + w]? =
        some (tensorNameOf count expr w) := fun w _ less =>
    getElem?_tensorName known isId isExpr (by rwa [zero_add] at less)
  obtain ⟨copy, variableMap, loadedVars, runs, source', inputs', size', name', -, outputNames,
      found, others, kept, covers⟩ :=
    @loadOutputs_spec Param (save graph.exprs outputs).tensorName state.exprs.length
      (before graph.exprs order count) expr.outputSize 0 created state.variableMap
      state.loadedVars (tensorNameOf count expr) names
      (fun index le => loaded.missing index (Or.inr le))
      (by rw [size, zero_add])
  have isIndexes : (saveOp graph.exprs order count id expr).outputIndexes.zipIdx =
      (List.range' 0 expr.outputSize).map fun w =>
        (((before graph.exprs order count + w : Nat) : Int), w) := by
    rw [← zipIdx_map_range fun w => ((before graph.exprs order count + w : Nat) : Int),
      ← varIndexInfo_eq emitted.nodup isId]
    rfl
  have step : loadOp (save graph.exprs outputs).tensorName state
      (saveOp graph.exprs order count id expr) =
      ⟨state.exprs ++ [copy], variableMap, loadedVars⟩ := by
    have isInputIndexes : (saveOp graph.exprs order count id expr).inputIndexes =
        expr.inputs.map (inputIndex graph.exprs order) := rfl
    rw [loadOp, isInputIndexes, isFound, isIndexes]
    dsimp only
    rw [← isCreated, runs]
  rw [step]
  have isSize := outputSizeOf_eq isExpr
  have next := @before_succ Param graph.exprs order count id isId
  rw [isSize] at next
  rw [loaded.length] at found covers
  refine ⟨?_, fun i less id' expr' isId' isExpr' => ?_, fun i less id' index isId' less' => ?_,
    fun index outside => ?_, fun i less id' index isId' less' => ?_⟩
  · rw [length_append, loaded.length, length_singleton]
  · rcases lt_or_eq_of_le (le_of_lt_succ less) with earlier | rfl
    · obtain ⟨copy', isCopy, reloaded⟩ := loaded.copies i earlier id' expr' isId' isExpr'
      refine ⟨copy', ?_, reloaded⟩
      rw [getElem?_append_left (by rwa [loaded.length]), isCopy]
    · obtain rfl := some.inj (isId.symm.trans isId')
      obtain rfl := some.inj (isExpr.symm.trans isExpr')
      refine ⟨copy, ?_, ?_, ?_, ?_, ?_, ?_⟩
      · rw [getElem?_append_right (by rw [loaded.length]), loaded.length, Nat.sub_self]
        rfl
      · rw [source']
        exact source
      · rw [inputs', sameInputs]
      · exact size'.trans size
      · intro v value isName nonempty
        have inside := (List.getElem?_eq_some_iff.mp isName).1
        rw [outputNames v (zero_le v) (by rwa [zero_add]), tensorNameOf,
          getD_eq_getElem?_getD, isName, getD_some, if_neg nonempty]
      · intro named
        have isOpName : opName i expr = expr.name := by
          rw [opName, if_pos named, if_neg named]
        rw [name' (by rw [name, isOpName]; exact named), name, isOpName]
  · rcases lt_or_eq_of_le (le_of_lt_succ less) with earlier | rfl
    · have below := @before_mono Param graph.exprs order (i + 1) count earlier
      have this := @before_succ Param graph.exprs order i id' isId'
      rw [others _ (Or.inl (by omega))]
      exact loaded.found i earlier id' index isId' less'
    · obtain rfl := some.inj (isId.symm.trans isId')
      exact found index (zero_le _) (by omega)
  · rw [others index (by omega)]
    exact loaded.missing index (by omega)
  · rcases lt_or_eq_of_le (le_of_lt_succ less) with earlier | rfl
    · exact kept _ (loaded.covered i earlier id' index isId' less')
    · obtain rfl := some.inj (isId.symm.trans isId')
      exact covers index (zero_le _) (by omega)

theorem loadedUpTo_load (valid : graph.Valid outputs) :
    LoadedUpTo graph.exprs (getExecuteOrder graph.exprs outputs)
      (getExecuteOrder graph.exprs outputs).length (load (save graph.exprs outputs)) := by
  obtain ⟨emitted, needed⟩ := getExecuteOrder_spec valid
  have known : ∀ id ∈ getExecuteOrder graph.exprs outputs,
      ∃ expr, graph.exprs[id]? = some expr := fun id member =>
    ⟨_, getElem?_eq_getElem (((needed id).mp member).lt valid)⟩
  have upTo : ∀ count ≤ (getExecuteOrder graph.exprs outputs).length,
      LoadedUpTo graph.exprs (getExecuteOrder graph.exprs outputs) count
        (((save graph.exprs outputs).oplists.take count).foldl
          (loadOp (save graph.exprs outputs).tensorName) ⟨[], [], []⟩) := by
    intro count le
    induction count with
    | zero =>
      exact ⟨rfl, fun i less => absurd less (not_lt_zero i),
        fun i less => absurd less (not_lt_zero i), fun _ _ => rfl,
        fun i less => absurd less (not_lt_zero i)⟩
    | succ count ih =>
      have isId := getElem?_eq_getElem le
      obtain ⟨expr, isExpr⟩ := known _ (mem_of_getElem? isId)
      rw [take_add_one, getElem?_oplists known isId isExpr, foldl_append]
      exact (ih (le_of_succ_le le)).succ known emitted isId isExpr
  have all := upTo _ (le_refl _)
  rwa [← length_oplists known, take_length, length_oplists known] at all

end Loading

/-! ## Round trips -/

/-- The same op, apart from its name, or the same input or constant. -/
def Source.Same : Source Param → Source Param → Prop
  | .op param _, .op param' _ => param = param'
  | .input info, .input info' => info = info'
  | .constant trainable info content, .constant trainable' info' content' =>
    trainable = trainable' ∧ info = info' ∧ content = content'
  | _, _ => False

/-- The same expression, with its inputs by their places in the order. -/
structure IsCopy (order : List Nat) (expr copy : Expr Param) : Prop where
  source : expr.source.Same copy.source
  inputs : copy.inputs = expr.inputs.map (Option.map (place order))
  outputSize : copy.outputSize = expr.outputSize
  outputNames : ∀ (v : Nat) (name : String), expr.outputNames[v]? = some name →
    name ≠ "" → copy.outputNames[v]? = some name
  name : expr.name ≠ "" → copy.name = expr.name

/-- What is loaded is the graph that the outputs need, in an order in which it can be
computed, with a variable for each output. -/
structure Graph.RoundTrips [OpKind Param] (graph : Graph Param)
    (outputs : List (Option (Nat × Nat))) (loaded : LoadState Param) : Prop where
  nodup : (getExecuteOrder graph.exprs outputs).Nodup
  needed : ∀ id, id ∈ getExecuteOrder graph.exprs outputs ↔ graph.Needed outputs id
  length : loaded.exprs.length = (getExecuteOrder graph.exprs outputs).length
  copies : ∀ (i id : Nat) (expr : Expr Param),
    (getExecuteOrder graph.exprs outputs)[i]? = some id → graph.exprs[id]? = some expr →
      ∃ copy, loaded.exprs[i]? = some copy ∧ IsCopy (getExecuteOrder graph.exprs outputs) expr copy
  producersFirst : ∀ (i : Nat) (copy : Expr Param), loaded.exprs[i]? = some copy →
    ∀ id index, some (id, index) ∈ copy.inputs → id < i
  covered : ∀ (i id index : Nat), (getExecuteOrder graph.exprs outputs)[i]? = some id →
    index < outputSizeOf graph.exprs id → (i, index) ∈ loaded.loadedVars

/-- The first dimension of an input is known, its type is not `bfloat16`, and a trainable
parameter has elements. -/
def Source.Restorable : Source Param → Prop
  | .op _ _ => True
  | .input info => info.dim.head? ≠ some (-1) ∧ info.type ≠ .bfloat16
  | .constant trainable _ content => trainable → content ≠ []

/-- No input is absent, and the source can be restored. -/
def Expr.Restorable (expr : Expr Param) : Prop :=
  none ∉ expr.inputs ∧ expr.source.Restorable

theorem Info.resolved_eq_iff {info : Info} :
    info = info.resolved ↔ info.dim.head? ≠ some (-1) ∧ info.type ≠ .bfloat16 := by
  obtain ⟨order, dim, type⟩ := info
  have types : type = revertDataType (convertDataType type) ↔ type ≠ .bfloat16 := by
    cases type <;> decide
  rw [Info.resolved, Info.mk.injEq, and_iff_right rfl, types]
  refine and_congr_left fun _ => ?_
  cases dim with
  | nil => exact iff_of_true rfl (nomatch ·)
  | cons first rest =>
    show first :: rest = (if first = -1 then 1 :: rest else first :: rest) ↔ _
    split
    · next unknown =>
        refine iff_of_false (fun same => ?_) (fun known => known (by rw [unknown]; rfl))
        rw [unknown] at same
        exact absurd (List.cons.inj same).1 (by decide)
    · next known =>
        exact iff_of_true rfl fun unknown => known (some.inj unknown)

/-- A source that is reloaded is the same if its expression can be restored. -/
theorem Source.Reloaded.same_iff {source copy : Source Param} (reloaded : source.Reloaded copy) :
    source.Same copy ↔ source.Restorable := by
  cases source with
  | op param name =>
    obtain ⟨name, rfl⟩ := reloaded
    exact iff_of_true rfl trivial
  | input info =>
    obtain rfl := reloaded
    exact Info.resolved_eq_iff
  | constant trainable info content =>
    obtain rfl := reloaded
    show trainable = _ ∧ info = info ∧ content = content ↔ _
    rw [and_iff_left ⟨rfl, rfl⟩]
    cases trainable with
    | false => exact iff_of_true rfl nofun
    | true =>
      cases content with
      | nil => exact iff_of_false (nomatch ·) fun some => some rfl rfl
      | cons => exact iff_of_true rfl fun _ => cons_ne_nil _ _

theorem takeWhile_isSome_eq_iff {α β : Type} {f : α → β} {items : List (Option α)} :
    (items.takeWhile Option.isSome).map (Option.map f) = items.map (Option.map f) ↔
      none ∉ items := by
  constructor
  · intro same member
    have isNone : none ∈ items.map (Option.map f) := mem_map.mpr ⟨none, member, rfl⟩
    rw [← same] at isNone
    obtain ⟨item, isItem, isNone⟩ := mem_map.mp isNone
    have isSome := mem_takeWhile_imp isItem
    rw [map_eq_none_iff.mp isNone] at isSome
    nomatch isSome
  · intro noNone
    rw [takeWhile_eq_self_iff.mpr]
    intro item member
    cases item with
    | none => exact absurd member noNone
    | some => rfl

variable [OpKind Param] {graph : Graph Param} {outputs : List (Option (Nat × Nat))}

/-- A graph makes the round trip if and only if each expression that is needed can be
restored. -/
theorem Graph.graph_roundTrips_iff (valid : graph.Valid outputs) :
    graph.RoundTrips outputs (load (save graph.exprs outputs)) ↔
      ∀ (id : Nat) (expr : Expr Param), graph.Needed outputs id →
        graph.exprs[id]? = some expr → expr.Restorable := by
  obtain ⟨emitted, needed⟩ := getExecuteOrder_spec valid
  have loaded := loadedUpTo_load valid
  have copies : ∀ (i id : Nat) (expr : Expr Param),
      (getExecuteOrder graph.exprs outputs)[i]? = some id → graph.exprs[id]? = some expr →
        ∃ copy, (load (save graph.exprs outputs)).exprs[i]? = some copy ∧
          IsReloaded (getExecuteOrder graph.exprs outputs) expr copy :=
    fun i id expr isId isExpr =>
      loaded.copies i (List.getElem?_eq_some_iff.mp isId).1 id expr isId isExpr
  constructor
  · intro roundTrips id expr isNeeded isExpr
    obtain ⟨i, isId⟩ := getElem?_of_mem ((needed id).mpr isNeeded)
    obtain ⟨copy, isPlace, isCopy⟩ := roundTrips.copies i id expr isId isExpr
    obtain ⟨copy', isPlace', reloaded⟩ := copies i id expr isId isExpr
    obtain rfl := some.inj (isPlace.symm.trans isPlace')
    exact ⟨takeWhile_isSome_eq_iff.mp (reloaded.inputs.symm.trans isCopy.inputs),
      reloaded.source.same_iff.mp isCopy.source⟩
  · intro restorable
    refine ⟨emitted.nodup, needed, loaded.length, fun i id expr isId isExpr => ?_,
      fun i copy isPlace id index isInput => ?_, fun i id index isId less =>
        loaded.covered i (List.getElem?_eq_some_iff.mp isId).1 id index isId less⟩
    · obtain ⟨copy, isPlace, reloaded⟩ := copies i id expr isId isExpr
      have isRestorable := restorable id expr ((needed id).mp (mem_of_getElem? isId)) isExpr
      exact ⟨copy, isPlace, reloaded.source.same_iff.mpr isRestorable.2,
        reloaded.inputs.trans (takeWhile_isSome_eq_iff.mpr isRestorable.1),
        reloaded.outputSize, reloaded.outputNames, reloaded.name⟩
    · have inside := (List.getElem?_eq_some_iff.mp isPlace).1
      rw [loaded.length] at inside
      have isId := getElem?_eq_getElem inside
      have less := ((needed _).mp (mem_of_getElem? isId)).lt valid
      obtain ⟨copy', isPlace', reloaded⟩ := copies i _ _ isId (getElem?_eq_getElem less)
      obtain rfl := some.inj (isPlace.symm.trans isPlace')
      rw [reloaded.inputs] at isInput
      obtain ⟨input, member, isInput⟩ := mem_map.mp isInput
      obtain ⟨⟨producer, output⟩, rfl, same⟩ := map_eq_some_iff.mp isInput
      obtain ⟨j, before, isProducer⟩ := emitted.input_before isId
        (mem_producersOf.mpr ⟨_, output, getElem?_eq_getElem less,
          (takeWhile_sublist _).subset member⟩)
      obtain ⟨inside', isValue⟩ := List.getElem?_eq_some_iff.mp isProducer
      have isIndex : (getExecuteOrder graph.exprs outputs).idxOf producer = j := by
        rw [← isValue]
        exact emitted.nodup.idxOf_getElem j inside'
      rw [place, isIndex] at same
      obtain rfl : j = id := (Prod.ext_iff.mp same).1
      exact before

/-! ### Two graphs -/

/-- Two types of ops. -/
inductive Sample
  | ReLU
  | Interp

instance : OpKind Sample where
  enumNameOpType
    | .ReLU => "ReLU"
    | .Interp => "Interp"
  isConst _ := false

/-- An input, and an op with it and other inputs. -/
def sampleExprs (op : Sample) (others : List (Option (Nat × Nat))) : List (Expr Sample) :=
  [⟨.input ⟨.NCHW, [1, 2], .float32⟩, [], ["x"], "x"⟩,
    ⟨.op op "op", some (0, 0) :: others, ["y"], "y"⟩]

def sampleGraph (op : Sample) (others : List (Option (Nat × Nat)))
    (absent : ∀ input ∈ others, input = none) : Graph Sample where
  exprs := sampleExprs op others
  inside expr member id index isInput := by
    rcases mem_pair.mp member with rfl | rfl
    · exact absurd isInput not_mem_nil
    · rcases mem_cons.mp isInput with same | isOther
      · obtain ⟨rfl, rfl⟩ := Prod.mk.inj (some.inj same)
        exact ⟨_, rfl, zero_lt_one⟩
      · nomatch absent _ isOther
  acyclic := by
    refine Subrelation.wf (fun {input id} member => ?_) (measure id).wf
    show input < id
    match id, member with
    | 0, member => exact absurd member not_mem_nil
    | 1, member =>
      obtain ⟨_, isInput, isProducer⟩ := mem_filterMap.mp member
      rcases mem_cons.mp isInput with rfl | isOther
      · obtain rfl : 0 = input := some.inj isProducer
        exact zero_lt_one
      · rw [absent _ isOther] at isProducer
        nomatch isProducer
    | id + 2, member => exact absurd member not_mem_nil
  constants expr member isConst := by
    rcases mem_pair.mp member with rfl | rfl
    · rfl
    · nomatch isConst
  plain expr member := by
    rcases mem_pair.mp member with rfl | rfl
    · exact ⟨rfl, rfl⟩
    · trivial

theorem valid_sampleGraph (op : Sample) (others : List (Option (Nat × Nat)))
    (absent : ∀ input ∈ others, input = none) :
    (sampleGraph op others absent).Valid [some (1, 0)] := by
  intro id index member
  obtain ⟨rfl, rfl⟩ := Prod.mk.inj (some.inj (mem_singleton.mp member))
  exact ⟨_, rfl, zero_lt_one⟩

theorem getExecuteOrder_ordered_ReLU :
    ∃ j < 1, (getExecuteOrder (sampleExprs .ReLU []) [some (1, 0)])[j]? = some 0 :=
  (getExecuteOrder_ordered (valid_sampleGraph .ReLU [] nofun)).2.2 1 1 (by decide) 0 (by decide)

theorem roundTrips_ReLU : (sampleGraph .ReLU [] nofun).RoundTrips [some (1, 0)]
      (load (save (sampleExprs .ReLU []) [some (1, 0)])) := by
  refine (Graph.graph_roundTrips_iff (valid_sampleGraph .ReLU [] nofun)).mpr ?_
  intro id expr _ isExpr
  rcases mem_pair.mp (mem_of_getElem? isExpr) with rfl | rfl
  · exact ⟨not_mem_nil, by decide, by decide⟩
  · exact ⟨by decide, trivial⟩

/-- The loader stops at the first absent input. -/
theorem not_roundTrips_Interp : ¬ (sampleGraph .Interp [none] (by simp)).RoundTrips [some (1, 0)]
      (load (save (sampleExprs .Interp [none]) [some (1, 0)])) := by
  intro roundTrips
  obtain ⟨copy, isPlace, isCopy⟩ := roundTrips.copies 1 1 _ (by decide) rfl
  have length : copy.inputs.length = 2 := by
    rw [isCopy.inputs]
    rfl
  have loaded : ((load (save (sampleExprs .Interp [none]) [some (1, 0)])).exprs[1]?.map
      fun copy => copy.inputs.length) = some 1 := by
    decide
  rw [isPlace, map_some, length] at loaded
  nomatch loaded

end Mnn.Express
