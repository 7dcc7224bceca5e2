import Mnn.Express.Expr

/-!
# The execute order

Every expression that is needed for the outputs is in the order once, behind the
expressions it takes inputs from.
-/

variable {outputs : List (Option (Nat × Nat))}

namespace Mnn.Express

open Mnn.Foundation DepthFirst
open List
open Option

variable {Param : Type} [OpKind Param] (graph : Graph Param)

/-- Variables of the graph, or null pointers. -/
def Graph.Valid (outputs : List (Option (Nat × Nat))) : Prop :=
  ∀ id index, some (id, index) ∈ outputs →
    ∃ expr, graph.exprs[id]? = some expr ∧ index < expr.outputSize

/-- An expression that some output needs. -/
def Graph.Needed (outputs : List (Option (Nat × Nat))) (id : Nat) : Prop :=
  ∃ output, some output ∈ outputs ∧ Needs (producersOf graph.exprs) output.1 id

variable {graph}

theorem mem_producersOf {id input : Nat} :
    input ∈ producersOf graph.exprs id ↔
      ∃ expr index, graph.exprs[id]? = some expr ∧ some (input, index) ∈ expr.inputs := by
  rw [producersOf]
  cases graph.exprs[id]? with
  | none =>
    refine ⟨fun member => absurd member not_mem_nil, ?_⟩
    rintro ⟨expr, index, impossible, -⟩
    nomatch impossible
  | some expr =>
    rw [map_some, getD_some, Expr.producers, mem_filterMap]
    constructor
    · rintro ⟨found, member, isInput⟩
      obtain ⟨⟨_, index⟩, rfl, rfl⟩ := map_eq_some_iff.mp isInput
      exact ⟨expr, index, rfl, member⟩
    · rintro ⟨_, index, same, member⟩
      obtain rfl := some.inj same
      exact ⟨_, member, rfl⟩

theorem producersOf_lt {id input : Nat} (member : input ∈ producersOf graph.exprs id) :
    input < graph.exprs.length := by
  obtain ⟨expr, index, isExpr, isInput⟩ := mem_producersOf.mp member
  obtain ⟨producer, isProducer, -⟩ := graph.inside expr (mem_of_getElem? isExpr) input index isInput
  exact (List.getElem?_eq_some_iff.mp isProducer).1

theorem Graph.Needed.lt (valid : graph.Valid outputs)
    {id : Nat} (needed : graph.Needed outputs id) : id < graph.exprs.length := by
  obtain ⟨⟨root, index⟩, isOutput, needs⟩ := needed
  induction needs using Relation.ReflTransGen.head_induction_on with
  | refl =>
    obtain ⟨expr, isExpr, -⟩ := valid root index isOutput
    exact (List.getElem?_eq_some_iff.mp isExpr).1
  | head isInput _ _ => exact producersOf_lt isInput

/-- The constants that are emitted first, and the stack. -/
structure Started (graph : Graph Param) (outputs : List (Option (Nat × Nat)))
    (before after : List Nat × List Nat) : Prop where
  emitted : Emitted (producersOf graph.exprs) after.2
  covers : ∀ output, some output ∈ outputs → output.1 ∈ after.1 ∨ output.1 ∈ after.2
  kept : before.1 ⊆ after.1 ∧ before.2 ⊆ after.2
  stack : ∀ id ∈ after.1, id ∈ before.1 ∨ ∃ output, some output ∈ outputs ∧ output.1 = id
  sequence : ∀ id ∈ after.2, id ∈ before.2 ∨ ∃ output, some output ∈ outputs ∧ output.1 = id
  length_le : after.1.length ≤ before.1.length + outputs.length

theorem producersOf_eq_nil {id : Nat}
    (isConst : ((graph.exprs[id]?).map Expr.isConst).getD false = true) :
    producersOf graph.exprs id = [] := by
  rw [producersOf]
  cases isExpr : graph.exprs[id]? with
  | none => rfl
  | some expr =>
    rw [isExpr, map_some, getD_some] at isConst
    rw [map_some, getD_some, Expr.producers,
      graph.constants expr (mem_of_getElem? isExpr) isConst]
    rfl

theorem started_startOrder (outputs : List (Option (Nat × Nat)))
    {before : List Nat × List Nat} (emitted : Emitted (producersOf graph.exprs) before.2) :
    Started graph outputs before (startOrder graph.exprs outputs before) := by
  induction outputs generalizing before with
  | nil =>
    exact ⟨emitted, fun output member => absurd member not_mem_nil,
      ⟨List.Subset.refl _, List.Subset.refl _⟩, fun id member => Or.inl member,
      fun id member => Or.inl member, le_refl _⟩
  | cons output outputs ih =>
    obtain ⟨stack, sequence⟩ := before
    have later : ∀ id, (∃ output', some output' ∈ outputs ∧ output'.1 = id) →
        ∃ output', some output' ∈ output :: outputs ∧ output'.1 = id :=
      fun id found => found.imp fun _ both => ⟨mem_cons_of_mem _ both.1, both.2⟩
    cases output with
    | none =>
      have started := ih emitted
      refine ⟨started.emitted, fun output member => ?_, started.kept, fun id member => ?_,
        fun id member => ?_, le_trans started.length_le (Nat.le_succ _)⟩
      · exact started.covers output ((mem_cons.mp member).resolve_left (nomatch ·))
      · exact (started.stack id member).imp_right (later id)
      · exact (started.sequence id member).imp_right (later id)
    | some output =>
      have isFirst : ∃ output', some output' ∈ some output :: outputs ∧
          output'.1 = output.1 := ⟨output, mem_cons_self, rfl⟩
      rw [startOrder]
      split
      · next isConst =>
          rw [Bool.and_eq_true, decide_eq_true_iff] at isConst
          have noInput : producersOf graph.exprs output.1 ⊆ sequence := by
            rw [producersOf_eq_nil isConst.1]
            exact nil_subset _
          have started := @ih (stack, sequence ++ [output.1]) (.snoc emitted isConst.2 noInput)
          refine ⟨started.emitted, fun output' member => ?_, ⟨started.kept.1, fun id member =>
              started.kept.2 (mem_append_left _ member)⟩,
            fun id member => ?_, fun id member => ?_,
            le_trans started.length_le (Nat.le_succ _)⟩
          · rcases mem_cons.mp member with same | member
            · obtain rfl := some.inj same
              exact Or.inr (started.kept.2 (mem_append_right _ (mem_singleton_self _)))
            · exact started.covers output' member
          · exact (started.stack id member).imp_right (later id)
          · rcases started.sequence id member with member | found
            · rcases mem_append.mp member with member | member
              · exact Or.inl member
              · rw [mem_singleton.mp member]
                exact Or.inr isFirst
            · exact Or.inr (later id found)
      · have started := @ih (output.1 :: stack, sequence) emitted
        refine ⟨started.emitted, fun output' member => ?_,
          ⟨fun id member => started.kept.1 (mem_cons_of_mem _ member), started.kept.2⟩,
          fun id member => ?_, fun id member => ?_, ?_⟩
        · rcases mem_cons.mp member with same | member
          · obtain rfl := some.inj same
            exact Or.inl (started.kept.1 mem_cons_self)
          · exact started.covers output' member
        · rcases started.stack id member with member | found
          · rcases mem_cons.mp member with rfl | member
            · exact Or.inr isFirst
            · exact Or.inl member
          · exact Or.inr (later id found)
        · exact (started.sequence id member).imp_right (later id)
        · have le : _ ≤ (stack.length + 1) + outputs.length := started.length_le
          show _ ≤ stack.length + (outputs.length + 1)
          rwa [add_right_comm, add_assoc] at le

/-- The order has what is needed, each expression once and behind its inputs. -/
theorem getExecuteOrder_spec (valid : graph.Valid outputs) :
    Emitted (producersOf graph.exprs) (getExecuteOrder graph.exprs outputs) ∧
      ∀ id, id ∈ getExecuteOrder graph.exprs outputs ↔ graph.Needed outputs id := by
  have started := @started_startOrder Param _ graph outputs ([], []) .nil
  set start := startOrder graph.exprs outputs ([], []) with isStart
  obtain ⟨added, count, runs, emitted, subset, needs, le⟩ :=
    exists_empty graph.acyclic start.1 started.emitted
  have isNeeded : ∀ id ∈ start.2 ++ added, graph.Needed outputs id := by
    intro id member
    rcases mem_append.mp member with member | member
    · rcases started.sequence id member with impossible | ⟨output, isOutput, rfl⟩
      · exact absurd impossible not_mem_nil
      · exact ⟨output, isOutput, .refl⟩
    · obtain ⟨root, isRoot, needs⟩ := needs id member
      rcases started.stack root isRoot with impossible | ⟨output, isOutput, rfl⟩
      · exact absurd impossible not_mem_nil
      · exact ⟨output, isOutput, needs⟩
  have few : (start.2 ++ added).length ≤ graph.exprs.length := by
    have subperm := List.Nodup.subperm emitted.nodup fun id member =>
      mem_range.mpr ((isNeeded id member).lt valid)
    have lengths := subperm.length_le
    rwa [length_range] at lengths
  have isOrder : getExecuteOrder graph.exprs outputs = start.2 ++ added := by
    have stack : start.1.length ≤ ([] : List Nat).length + outputs.length := started.length_le
    rw [length_nil, zero_add] at stack
    rw [length_append] at few
    obtain ⟨more, enough⟩ := Nat.exists_eq_add_of_le
      (show count ≤ outputs.length + 2 * graph.exprs.length by omega)
    rw [getExecuteOrder, enough, turns_add, ← isStart, runs, turns_nil]
  rw [isOrder]
  refine ⟨emitted, fun id => ⟨isNeeded id, ?_⟩⟩
  rintro ⟨output, isOutput, needs⟩
  induction needs using Relation.ReflTransGen.head_induction_on with
  | refl =>
    rcases started.covers output isOutput with member | member
    · exact subset member
    · exact mem_append_left _ member
  | head isInput _ ih => exact emitted.inputs_subset _ ih isInput

/-- The expressions can be executed in the order, and none is left out or in vain. -/
theorem getExecuteOrder_ordered (valid : graph.Valid outputs) :
    let order := getExecuteOrder graph.exprs outputs
    order.Nodup ∧ (∀ id, id ∈ order ↔ graph.Needed outputs id) ∧
      ∀ (i id : Nat), order[i]? = some id →
        ∀ input ∈ producersOf graph.exprs id, ∃ j < i, order[j]? = some input := by
  obtain ⟨emitted, isNeeded⟩ := getExecuteOrder_spec valid
  exact ⟨emitted.nodup, isNeeded, fun i id isId input isInput => emitted.input_before isId isInput⟩

/-!
# What is loaded after saving

The number of an output is the number of outputs before its expression and its own index.
The loader meets the expressions in the same order, so that it finds each number again.
-/

open Mnn.Core BitFields

variable {Param : Type}

/-! ## Lists that are put together -/

section Lists

variable {α β : Type}

theorem getElem?_filterMap_of_isSome {f : α → Option β} {items : List α}
    (all : ∀ item ∈ items, (f item).isSome) (i : Nat) :
    (items.filterMap f)[i]? = items[i]?.bind f := by
  induction items generalizing i with
  | nil => rfl
  | cons item items ih =>
    obtain ⟨value, isValue⟩ := isSome_iff_exists.mp (all item mem_cons_self)
    rw [filterMap_cons_some isValue]
    cases i with
    | zero => exact isValue.symm
    | succ i => exact ih (fun item member => all item (mem_cons_of_mem _ member)) i

theorem getElem?_flatMap {f : α → List β} {items : List α} {i v : Nat} {item : α}
    (isItem : items[i]? = some item) (inside : v < (f item).length) :
    (items.flatMap f)[((items.take i).map fun item => (f item).length).sum + v]? =
      (f item)[v]? := by
  induction items generalizing i with
  | nil => nomatch isItem
  | cons first items ih =>
    rw [flatMap_cons]
    cases i with
    | zero =>
      obtain rfl := some.inj isItem
      rw [take_zero, map_nil, sum_nil, zero_add, getElem?_append_left inside]
    | succ i =>
      rw [take_succ_cons, map_cons, sum_cons, add_assoc,
        getElem?_append_right (Nat.le_add_right ..), Nat.add_sub_cancel_left]
      exact ih isItem

end Lists

variable (exprs : List (Expr Param)) (order : List Nat)

/-- The outputs before the `i`-th expression of the order. -/
def before (i : Nat) : Nat := ((order.take i).map (outputSizeOf exprs)).sum

variable {exprs order}

theorem outputSizeOf_eq {id : Nat} {expr : Expr Param} (isExpr : exprs[id]? = some expr) :
    outputSizeOf exprs id = expr.outputSize := by
  rw [outputSizeOf, isExpr]
  rfl

theorem before_succ {i id : Nat} (isId : order[i]? = some id) :
    before exprs order (i + 1) = before exprs order i + outputSizeOf exprs id := by
  rw [before, take_add_one, isId, map_append, sum_append, before]
  show _ + (outputSizeOf exprs id + 0) = _
  rw [add_zero]

theorem before_mono {i j : Nat} (le : i ≤ j) : before exprs order i ≤ before exprs order j := by
  obtain ⟨more, rfl⟩ := Nat.exists_eq_add_of_le le
  rw [before, before, take_add, map_append, sum_append]
  exact Nat.le_add_right ..

theorem varIndexInfo_eq (nodup : order.Nodup) {i id : Nat} (isId : order[i]? = some id) :
    varIndexInfo exprs order id = before exprs order i := by
  obtain ⟨inside, rfl⟩ := List.getElem?_eq_some_iff.mp isId
  rw [varIndexInfo, if_pos (getElem_mem ..), nodup.idxOf_getElem i inside, before]

/-! ## The net that is saved -/

section Saved

variable (known : ∀ id ∈ order, ∃ expr, exprs[id]? = some expr)

include known

theorem getElem?_ops {i id : Nat} {expr : Expr Param} (isId : order[i]? = some id)
    (isExpr : exprs[id]? = some expr) :
    (order.zipIdx.filterMap fun entry =>
      (exprs[entry.1]?).map fun expr => (entry, expr))[i]? = some ((id, i), expr) := by
  rw [getElem?_filterMap_of_isSome]
  · rw [getElem?_zipIdx, isId]
    show (exprs[id]?).map _ = _
    rw [isExpr, zero_add]
    rfl
  · intro entry member
    obtain ⟨expr, isExpr⟩ := known entry.1 (fst_mem_of_mem_zipIdx member)
    rw [isExpr]
    rfl

theorem sizes_ops (i : Nat) : (((order.zipIdx.filterMap fun entry =>
        (exprs[entry.1]?).map fun expr => (entry, expr)).take i).map
      fun op => op.2.outputSize).sum = before exprs order i := by
  have same : (order.zipIdx.filterMap fun entry =>
      (exprs[entry.1]?).map fun expr => (entry, expr)).map (fun op => op.2.outputSize) =
      order.map (outputSizeOf exprs) := by
    apply ext_getElem?
    intro j
    rw [getElem?_map, getElem?_map]
    cases isId : order[j]? with
    | none =>
      rw [getElem?_filterMap_of_isSome, getElem?_zipIdx, isId]
      · rfl
      · intro entry member
        obtain ⟨expr, isExpr⟩ := known entry.1 (fst_mem_of_mem_zipIdx member)
        rw [isExpr]
        rfl
    | some id =>
      obtain ⟨expr, isExpr⟩ := known id (mem_of_getElem? isId)
      rw [getElem?_ops known isId isExpr, map_some, map_some, outputSizeOf_eq isExpr]
  rw [before, map_take, same, map_take]

end Saved

section Net

variable [OpKind Param] {outputs : List (Option (Nat × Nat))}
  (known : ∀ id ∈ getExecuteOrder exprs outputs, ∃ expr, exprs[id]? = some expr)

include known

theorem getElem?_oplists {i id : Nat} {expr : Expr Param}
    (isId : (getExecuteOrder exprs outputs)[i]? = some id) (isExpr : exprs[id]? = some expr) :
    (save exprs outputs).oplists[i]? =
      some (saveOp exprs (getExecuteOrder exprs outputs) i id expr) := by
  rw [save]
  dsimp only
  rw [getElem?_map, getElem?_ops known isId isExpr]
  rfl

theorem length_oplists :
    (save exprs outputs).oplists.length = (getExecuteOrder exprs outputs).length := by
  rw [save]
  dsimp only
  rw [length_map, length_filterMap_eq_countP, countP_eq_length.mpr, length_zipIdx]
  intro entry member
  obtain ⟨expr, isExpr⟩ := known entry.1 (fst_mem_of_mem_zipIdx member)
  rw [isExpr]
  rfl

theorem getElem?_tensorName {i id v : Nat} {expr : Expr Param}
    (isId : (getExecuteOrder exprs outputs)[i]? = some id)
    (isExpr : exprs[id]? = some expr) (less : v < expr.outputSize) :
    (save exprs outputs).tensorName[before exprs (getExecuteOrder exprs outputs) i + v]? =
      some (tensorNameOf i expr v) := by
  rw [save]
  dsimp only
  have isName := @getElem?_flatMap _ String (fun op : (Nat × Nat) × Expr Param =>
      (List.range op.2.outputSize).map (tensorNameOf op.1.2 op.2)) _ i v _
    (getElem?_ops known isId isExpr)
    (by rw [length_map, length_range]; exact less)
  simp only [length_map, length_range] at isName
  rw [sizes_ops known] at isName
  rw [isName, getElem?_map, getElem?_range less]
  rfl

end Net

/-- The outputs from the `v`-th on get their names and variables. -/
theorem loadOutputs_spec {tensorName : List String} {id first : Nat} (count v : Nat)
    {expr : Expr Param} {variableMap : List (Int × (Nat × Nat))}
    {loadedVars : List (Nat × Nat)} {names : Nat → String}
    (isName : ∀ w, v ≤ w → w < v + count → tensorName[first + w]? = some (names w))
    (fresh : ∀ index : Int, (first + v : Nat) ≤ index → variableMap.lookup index = none)
    (inside : v + count ≤ expr.outputNames.length) :
    ∃ expr' variableMap' loadedVars', loadOutputs tensorName id
        ((List.range' v count).map fun w => (((first + w : Nat) : Int), w)) expr variableMap
        loadedVars = (expr', variableMap', loadedVars') ∧
      expr'.source = expr.source ∧ expr'.inputs = expr.inputs ∧
      expr'.outputNames.length = expr.outputNames.length ∧
      (expr.name ≠ "" → expr'.name = expr.name) ∧
      (∀ w, w < v → expr'.outputNames[w]? = expr.outputNames[w]?) ∧
      (∀ w, v ≤ w → w < v + count → expr'.outputNames[w]? = some (names w)) ∧
      (∀ w, v ≤ w → w < v + count → variableMap'.lookup ((first + w : Nat) : Int) = some (id, w)) ∧
      (∀ index : Int, index < (first + v : Nat) ∨ (first + (v + count) : Nat) ≤ index →
        variableMap'.lookup index = variableMap.lookup index) ∧
      (∀ entry ∈ loadedVars, entry ∈ loadedVars') ∧
      ∀ w, v ≤ w → w < v + count → (id, w) ∈ loadedVars' := by
  induction count generalizing v expr variableMap loadedVars with
  | zero =>
    refine ⟨expr, variableMap, loadedVars, rfl, rfl, rfl, rfl, fun _ => rfl,
      fun _ _ => rfl, fun w le less => ?_, fun w le less => ?_, fun _ _ => rfl,
      fun _ member => member, fun w le less => ?_⟩
    all_goals omega
  | succ count ih =>
    have isFirst := isName v (le_refl v) (by omega)
    obtain ⟨expr', variableMap', loadedVars', runs, source, inputs, length, name, low, high,
        found, others, kept, covers⟩ :=
      @ih (v + 1) (expr.setOutputName v (names v))
        (((first + v : Nat), (id, v)) :: variableMap) (loadedVars ++ [(id, v)])
        (fun w le less => isName w (by omega) (by omega))
        (fun index le => by
          have differs : (index == ((first + v : Nat) : Int)) = false := by
            rw [beq_eq_false_iff_ne]
            omega
          rw [lookup_cons, differs]
          exact fresh index (by omega))
        (by
          show v + 1 + count ≤ (expr.outputNames.set v (names v)).length
          rw [length_set]
          omega)
    refine ⟨expr', variableMap', loadedVars', ?_, source, inputs, ?_, ?_, ?_, ?_, ?_, ?_, ?_, ?_⟩
    · rw [range'_succ, map_cons, loadOutputs, fresh _ (Int.le_refl _)]
      dsimp only
      rw [Int.toNat_natCast, isFirst]
      exact runs
    · rw [length]
      exact length_set
    · intro named
      have same : (expr.setOutputName v (names v)).name = expr.name := if_neg named
      rw [← same]
      exact name (same ▸ named)
    · intro w less
      rw [low w (by omega)]
      exact getElem?_set_ne (by omega)
    · intro w le less
      rcases eq_or_lt_of_le le with rfl | later
      · rw [low v (Nat.lt_succ_self v)]
        exact getElem?_set_self (by omega)
      · exact high w later (by omega)
    · intro w le less
      rcases eq_or_lt_of_le le with rfl | later
      · rw [others _ (Or.inl (by omega)), lookup_cons, beq_self_eq_true]
      · exact found w later (by omega)
    · intro index outside
      have differs : (index == ((first + v : Nat) : Int)) = false := by
        rw [beq_eq_false_iff_ne]
        omega
      rw [others index (by omega), lookup_cons, differs]
    · exact fun entry member => kept entry (mem_append_left _ member)
    · intro w le less
      rcases eq_or_lt_of_le le with rfl | later
      · exact kept _ (mem_append_right _ (mem_singleton_self _))
      · exact covers w later (by omega)

end Mnn.Express
