import Mnn.Llm.JinjaRender

/-!
# The loops of rendering

The loops over strings and slices with fuel.  Each of them comes to an end but one:
`split` with an empty delimiter finds it at the same place again and again.
-/

variable {fuel fuel' : Nat}

namespace Mnn.Llm.Jinja

open Mnn.Foundation.IntRanges
open Mnn.Foundation.Occurrences
open Mnn.Foundation.Settling
open Mnn.Llm.Ujson
open List
open Option
open Nat

/-! ## The loops -/

/-- `s.find(word, pos)` -/
def findFrom (s word : List Byte) (pos : Nat) : Option Nat :=
  (Foundation.Occurrences.find word (s.drop pos)).map (pos + ·)

/-- The loop of `split`. -/
def splitLoop (s delim : List Byte) : Nat → Nat → Outcome (List (List Byte))
  | 0, _ => .endless
  | fuel + 1, pos =>
    match findFrom s delim pos with
    | some found => do
        let tokens ← splitLoop s delim fuel (found + delim.length)
        pure ((s.drop pos).take (found - pos) :: tokens)
    | none => pure [s.drop pos]

/-- The loop of `replace`. -/
def replaceLoop (before after : List Byte) : Nat → List Byte → Nat → Outcome (List Byte)
  | 0, _, _ => .endless
  | fuel + 1, res, start_pos =>
    match findFrom res before start_pos with
    | some found =>
      replaceLoop before after fuel (res.take found ++ after ++ res.drop (found + before.length))
        (found + after.length)
    | none => pure res

/-- How many elements there are. -/
def elementCount : Json → Nat
  | .array elements => elements.length
  | _ => 0

/-- `GetItemExpr::evaluate`; a slice takes an element in each round, so that with more
rounds than elements it is stopped when it has no value. -/
def itemRun (obj_val key_val : Json) : Run Json := fun fuel =>
  match getItem fuel obj_val key_val with
  | some result => .value result
  | none => if fuel ≤ elementCount obj_val then .endless else .stopped

def fuelLoops : Loops Run where
  stop := fun _ => .stopped
  split s delim := fun fuel => splitLoop s delim fuel 0
  replace s before after := fun fuel => replaceLoop before after fuel s 0
  getItem := itemRun

/-- The loops that are not begun where the delimiter is empty. -/
def watchedLoops : Loops Outcome where
  stop := .stopped
  split s delim := if delim = [] then .endless else splitLoop s delim (s.length + 1) 0
  replace s before after := replaceLoop before after (s.length + 1) s 0
  getItem obj_val key_val := itemRun obj_val key_val (elementCount obj_val + 1)

section Searching

variable {s word : List Byte} {pos found : Nat}

theorem findFrom_nil (s : List Byte) (pos : Nat) : findFrom s [] pos = some pos := by
  unfold findFrom
  cases s.drop pos with
  | nil => rfl
  | cons c rest => rfl

theorem findFrom_bounds (some : word ≠ []) (isFound : findFrom s word pos = .some found) :
    pos ≤ found ∧ found + word.length ≤ s.length := by
  obtain ⟨place, isPlace, rfl⟩ := map_eq_some_iff.mp isFound
  have occurs := (find_eq_some isPlace).1
  rw [occursAt_drop] at occurs
  exact ⟨le_add_right pos place, occurs.length_le some⟩

end Searching

section Loops

variable {s delim before after : List Byte}

theorem splitLoop_nil (s : List Byte) (fuel pos : Nat) : splitLoop s [] fuel pos = .endless := by
  induction fuel generalizing pos with
  | zero => rfl
  | succ fuel ih =>
    rw [splitLoop, findFrom_nil]
    dsimp only
    rw [length_nil, add_zero, ih]
    rfl

theorem splitLoop_mono (le : fuel ≤ fuel') (pos : Nat) :
    splitLoop s delim fuel pos = .endless ∨
      splitLoop s delim fuel pos = splitLoop s delim fuel' pos := by
  induction fuel generalizing fuel' pos with
  | zero => exact .inl rfl
  | succ fuel ih =>
    cases fuel' with
    | zero => exact absurd le (not_succ_le_zero fuel)
    | succ fuel' =>
      rw [splitLoop, splitLoop]
      cases findFrom s delim pos with
      | none => exact .inr rfl
      | some found =>
        dsimp only
        rcases ih (le_of_succ_le_succ le) (found + delim.length) with
          goesOn | same
        · rw [goesOn]
          exact .inl rfl
        · rw [same]
          exact .inr rfl

theorem splitLoop_finishes (some : delim ≠ []) {pos : Nat}
    (enough : s.length - pos < fuel) : splitLoop s delim fuel pos ≠ .endless := by
  induction fuel generalizing pos with
  | zero => cases enough
  | succ fuel ih =>
    rw [splitLoop]
    cases isFound : findFrom s delim pos with
    | none => exact nofun
    | some found =>
      have bounds := findFrom_bounds some isFound
      have positive := length_pos_of_ne_nil some
      have later := @ih (found + delim.length) (by omega)
      dsimp only
      cases isLater : splitLoop s delim fuel (found + delim.length) with
      | value tokens => exact nofun
      | stopped => exact nofun
      | endless => exact absurd isLater later

theorem settles_split (s delim : List Byte) :
    Settles (fuelLoops.split s delim) (watchedLoops.split s delim) := by
  by_cases none : delim = []
  · have endless : fuelLoops.split s delim = fun _ => .endless := by
      rw [none]
      exact funext fun fuel => splitLoop_nil s fuel 0
    rw [endless]
    show Settles _ (if delim = [] then _ else _)
    rw [if_pos none]
    exact settles_const .endless
  · show Settles _ (if delim = [] then _ else _)
    rw [if_neg none]
    exact settles_of_mono (fun _ _ le => splitLoop_mono le 0)
      (splitLoop_finishes none (lt_succ_self _))

theorem replaceLoop_mono (le : fuel ≤ fuel') (res : List Byte) (start_pos : Nat) :
    replaceLoop before after fuel res start_pos = .endless ∨
      replaceLoop before after fuel res start_pos =
        replaceLoop before after fuel' res start_pos := by
  induction fuel generalizing fuel' res start_pos with
  | zero => exact .inl rfl
  | succ fuel ih =>
    cases fuel' with
    | zero => exact absurd le (not_succ_le_zero fuel)
    | succ fuel' =>
      rw [replaceLoop, replaceLoop]
      cases findFrom res before start_pos with
      | none => exact .inr rfl
      | some found => exact ih (le_of_succ_le_succ le) _ _

/-- Each round of `replace` leaves less of the string behind what was put in. -/
theorem replaceLoop_finishes (some : before ≠ []) {res : List Byte}
    {start_pos : Nat} (enough : res.length - start_pos < fuel) :
    replaceLoop before after fuel res start_pos ≠ .endless := by
  induction fuel generalizing res start_pos with
  | zero => cases enough
  | succ fuel ih =>
    rw [replaceLoop]
    cases isFound : findFrom res before start_pos with
    | none => exact nofun
    | some found =>
      have bounds := findFrom_bounds some isFound
      have positive := length_pos_of_ne_nil some
      refine ih ?_
      rw [length_append, length_append, length_take, length_drop]
      omega

theorem settles_replace (s : List Byte) (some : before ≠ []) (after : List Byte) :
    Settles (fuelLoops.replace s before after) (watchedLoops.replace s before after) :=
  settles_of_mono (fun _ _ le => replaceLoop_mono le s 0)
    (replaceLoop_finishes some (lt_succ_self _))

end Loops

section Slices

variable {fuel fuel' : Nat} {elements result : List Json}

theorem sliceLoop_mono (le : fuel ≤ fuel') {step : Int}
    {start stop : Option Int} (returns : sliceLoop fuel elements step start stop = some result) :
    sliceLoop fuel' elements step start stop = some result := by
  unfold sliceLoop at returns ⊢
  dsimp only at returns ⊢
  generalize (if step = 0 then 1 else step) = step at returns ⊢
  split at returns
  · rename_i up
    rw [if_pos up]
    exact loop_mono le returns
  · rename_i down
    rw [if_neg down]
    exact loop_mono le returns

theorem sliceStart_nonneg {len step : Int} (some : 0 ≤ len) (up : 0 < step)
    (start : Option Int) : 0 ≤ sliceStart len step start := by
  cases start with
  | none =>
    rw [sliceStart, if_pos up]
  | some start =>
    dsimp only [sliceStart]
    split_ifs <;> omega

theorem sliceLoop_stable (enough : elements.length < fuel)
    (enough' : elements.length < fuel') (step : Int) (start stop : Option Int) :
    sliceLoop fuel elements step start stop = sliceLoop fuel' elements step start stop := by
  unfold sliceLoop
  dsimp only
  generalize isStep : (if step = 0 then 1 else step) = step'
  split
  · rename_i up
    have least := sliceStart_nonneg (Int.natCast_nonneg elements.length) up start
    have closer : ∀ i : Int,
        (decide (i < sliceStop elements.length step' stop) && decide (i < elements.length)) = true →
          ((elements.length : Int) - (i + step')).toNat < ((elements.length : Int) - i).toNat := by
      intro i goes
      rw [Bool.and_eq_true, decide_eq_true_eq, decide_eq_true_eq] at goes
      omega
    exact loop_stable (fun i => (elements.length - i).toNat) closer (by omega) (by omega)
  · rename_i down
    have different : step' ≠ 0 := by
      rw [← isStep]
      split <;> omega
    have closer : ∀ i : Int, (decide (sliceStop elements.length step' stop < i) && decide (0 ≤ i) &&
            decide (i < elements.length)) = true →
          (if i + step' < elements.length then (i + step' + 1).toNat else 0) <
            if i < elements.length then (i + 1).toNat else 0 := by
      intro i goes
      rw [Bool.and_eq_true, Bool.and_eq_true, decide_eq_true_eq, decide_eq_true_eq,
        decide_eq_true_eq] at goes
      rw [if_pos goes.2, if_pos (by omega)]
      omega
    have most (i : Int) : (if i < elements.length then (i + 1).toNat else 0) ≤ elements.length := by
      split <;> omega
    exact loop_stable (fun i => if i < elements.length then (i + 1).toNat else 0) closer
      (lt_of_le_of_lt (most _) enough) (lt_of_le_of_lt (most _) enough')

variable {key_val obj_val : Json}

theorem sliceElements_mono (le : fuel ≤ fuel')
    (returns : sliceElements fuel elements key_val = some result) :
    sliceElements fuel' elements key_val = some result := by
  unfold sliceElements at returns ⊢
  obtain ⟨step, isStep, returns⟩ := bind_eq_some_iff.mp returns
  obtain ⟨start, isStart, returns⟩ := bind_eq_some_iff.mp returns
  obtain ⟨stop, isStop, returns⟩ := bind_eq_some_iff.mp returns
  rw [isStep, isStart, isStop]
  exact sliceLoop_mono le returns

theorem getItem_array (elements : List Json) (key_val : Json) :
    getItem fuel (.array elements) key_val =
      if isSlice key_val then (sliceElements fuel elements key_val).map .array
      else getItem 0 (.array elements) key_val := by
  by_cases slices : isSlice key_val = true
  · rw [if_pos slices, getItem, if_pos slices]
  · rw [if_neg slices, getItem, if_neg slices, getItem, if_neg slices]

theorem getItem_other (none : ∀ elements, obj_val ≠ .array elements)
    (key_val : Json) : getItem fuel obj_val key_val = getItem 0 obj_val key_val := by
  cases obj_val with
  | array elements => exact absurd rfl (none elements)
  | object members => cases key_val <;> rfl
  | _ => rfl

theorem getItem_mono (le : fuel ≤ fuel') {result : Json}
    (returns : getItem fuel obj_val key_val = some result) :
    getItem fuel' obj_val key_val = some result := by
  by_cases isArray : ∃ elements, obj_val = .array elements
  · obtain ⟨elements, rfl⟩ := isArray
    rw [getItem_array] at returns ⊢
    split at returns
    · rename_i slices
      obtain ⟨taken, isTaken, isResult⟩ := map_eq_some_iff.mp returns
      rw [if_pos slices, sliceElements_mono le isTaken, ← isResult]
      rfl
    · rename_i single
      rw [if_neg single]
      exact returns
  · rw [getItem_other (not_exists.mp isArray)] at returns ⊢
    exact returns

theorem getItem_stable (enough : elementCount obj_val < fuel)
    (enough' : elementCount obj_val < fuel') (key_val : Json) :
    getItem fuel obj_val key_val = getItem fuel' obj_val key_val := by
  by_cases isArray : ∃ elements, obj_val = .array elements
  · obtain ⟨elements, rfl⟩ := isArray
    rw [@getItem_array fuel, @getItem_array fuel', sliceElements, sliceElements]
    simp only [sliceLoop_stable enough enough']
  · rw [@getItem_other fuel _ (not_exists.mp isArray), @getItem_other fuel' _ (not_exists.mp isArray)]

theorem settles_getItem (obj_val key_val : Json) :
    Settles (fuelLoops.getItem obj_val key_val) (watchedLoops.getItem obj_val key_val) := by
  refine settles_of_mono (fun fuel fuel' le => ?_) ?_
  · show itemRun obj_val key_val fuel = _ ∨ itemRun obj_val key_val fuel = itemRun obj_val key_val fuel'
    unfold itemRun
    cases isItem : getItem fuel obj_val key_val with
    | some result =>
      rw [getItem_mono le isItem]
      exact .inr rfl
    | none =>
      dsimp only
      by_cases few : fuel ≤ elementCount obj_val
      · rw [if_pos few]
        exact .inl rfl
      · rw [getItem_stable (by omega) (show elementCount obj_val < fuel by omega), isItem]
        dsimp only
        rw [if_neg few, if_neg (by omega)]
        exact .inr rfl
  · show itemRun obj_val key_val (elementCount obj_val + 1) ≠ .endless
    unfold itemRun
    cases getItem (elementCount obj_val + 1) obj_val key_val with
    | some result => exact nofun
    | none =>
      dsimp only
      rw [if_neg (by omega)]
      exact nofun

end Slices

/-!
# Rendering comes to an end

Everything but the loops goes over the template or over a value, so that rendering
settles as its loops do: it comes to an end if and only if it does not come to a
`split` with an empty delimiter.
-/

/-! ## Methods and filters -/

/-- Named arguments that settle. -/
def ArgSettles (run : String × Run Json) (outcome : String × Outcome Json) : Prop :=
  run.1 = outcome.1 ∧ Settles run.2 outcome.2

section Calls

variable {α : Type}

theorem settles_orStop (x : Option α) : Settles (orStop fuelLoops x) (orStop watchedLoops x) := by
  cases x with
  | none => exact settles_const .stopped
  | some result => exact settles_pure result

variable {runs : List (Run Json)} {outcomes : List (Outcome Json)}

theorem settles_firstString (without : List Byte) (args : List.Forall₂ Settles runs outcomes) :
    Settles (firstString without runs) (firstString without outcomes) := by
  cases args with
  | nil => exact settles_pure without
  | cons first rest => exact first.bind fun _ => settles_pure _

theorem settles_methodCall (obj_val : Json) (method : String)
    (args : List.Forall₂ Settles runs outcomes) :
    Settles (methodCall fuelLoops obj_val method runs)
      (methodCall watchedLoops obj_val method outcomes) := by
  cases obj_val with
  | string s =>
    have empty : Settles (pure (Json.string [])) (pure (Json.string [])) := settles_pure _
    refine .ite ?_ (.ite ?_ (.ite ?_ (.ite ?_ (.ite ?_ (.ite ?_ (.ite ?_ empty))))))
    · cases args with
      | nil => exact empty
      | cons first rest => exact first.bind fun _ => settles_pure _
    · cases args with
      | nil => exact empty
      | cons first rest => exact first.bind fun _ => settles_pure _
    · exact (settles_firstString _ args).bind fun delim =>
        (settles_split s delim).bind fun _ => settles_pure _
    · exact (settles_firstString _ args).bind fun _ => settles_pure _
    · exact (settles_firstString _ args).bind fun _ => settles_pure _
    · exact (settles_firstString _ args).bind fun _ => settles_pure _
    · cases args with
      | nil => exact empty
      | cons first rest =>
        cases rest with
        | nil => exact empty
        | cons second rest =>
          refine first.bind fun before => second.bind fun after => ?_
          by_cases none : before.getString = []
          · rw [if_pos none, if_pos none]
            exact settles_pure _
          · rw [if_neg none, if_neg none]
            exact (settles_replace s none _).bind fun _ => settles_pure _
  | _ => exact settles_pure _

variable {namedRuns : List (String × Run Json)} {namedOutcomes : List (String × Outcome Json)}

section

variable (args : List.Forall₂ ArgSettles namedRuns namedOutcomes)

include args

theorem settles_indentOf (indent : Int) :
    Settles (indentOf fuelLoops indent namedRuns) (indentOf watchedLoops indent namedOutcomes) := by
  induction args generalizing indent with
  | nil => exact settles_pure indent
  | @cons run outcome _ _ first rest ih =>
    obtain ⟨name, run⟩ := run
    obtain ⟨_, outcome⟩ := outcome
    obtain ⟨rfl, settles⟩ := first
    refine .ite (settles.bind fun v => .ite ?_ (ih indent)) (ih indent)
    exact (settles_orStop _).bind fun _ => ih _

theorem settles_attributeOf (attr : List Byte) :
    Settles (attributeOf attr namedRuns) (attributeOf attr namedOutcomes) := by
  induction args generalizing attr with
  | nil => exact settles_pure attr
  | @cons run outcome _ _ first rest ih =>
    obtain ⟨name, run⟩ := run
    obtain ⟨_, outcome⟩ := outcome
    obtain ⟨rfl, settles⟩ := first
    refine .ite (settles.bind fun v => ?_) (ih attr)
    cases v with
    | string s => exact ih s
    | _ => exact ih attr

theorem settles_separatorOf :
    Settles (separatorOf namedRuns) (separatorOf namedOutcomes) := by
  cases args with
  | nil => exact settles_pure []
  | cons first rest => exact first.2.bind fun _ => settles_pure _

theorem settles_argumentValues :
    Settles (argumentValues namedRuns) (argumentValues namedOutcomes) := by
  induction args with
  | nil => exact settles_pure []
  | @cons run outcome _ _ first rest ih =>
    obtain ⟨name, run⟩ := run
    obtain ⟨_, outcome⟩ := outcome
    obtain ⟨rfl, settles⟩ := first
    exact settles.bind fun _ => ih.bind fun _ => settles_pure _

end

theorem settles_call (context : Context) (func_name : String)
    (args : List.Forall₂ ArgSettles namedRuns namedOutcomes) :
    Settles (call context func_name namedRuns) (call context func_name namedOutcomes) := by
  unfold call
  cases context.functions func_name with
  | none => exact settles_pure _
  | some func => exact (settles_argumentValues args).bind fun _ => settles_pure _

theorem settles_filter (floats : Floats) (val : Json) (name : String)
    (args : List.Forall₂ ArgSettles namedRuns namedOutcomes) :
    Settles (filter fuelLoops floats val name namedRuns)
      (filter watchedLoops floats val name namedOutcomes) := by
  refine .ite ?_ (.ite ?_ (.ite ?_ (.ite ?_ ?_)))
  · exact (settles_indentOf args (-1)).bind fun _ => settles_pure _
  · exact settles_pure _
  · cases val <;> exact settles_orStop _
  · cases val <;> exact settles_pure _
  · cases val with
    | string s =>
      exact .ite (settles_pure _) (.ite (settles_pure _)
        (.ite (settles_pure _) (.ite (settles_pure _) (settles_pure _))))
    | array elements =>
      refine .ite ?_ (.ite ?_ (settles_pure _))
      · exact (settles_attributeOf args []).bind fun _ =>
          .ite (settles_pure _) (settles_pure _)
      · exact (settles_separatorOf args).bind fun _ => settles_pure _
    | _ => exact settles_pure _

theorem settles_setItems {runs : List (Run Json × Run Json)}
    {outcomes : List (Outcome Json × Outcome Json)}
    (items : List.Forall₂ (fun run outcome =>
      Settles run.1 outcome.1 ∧ Settles run.2 outcome.2) runs outcomes) (obj : Json) :
    Settles (setItems fuelLoops obj runs) (setItems watchedLoops obj outcomes) := by
  induction items generalizing obj with
  | nil => exact settles_pure obj
  | cons first rest ih =>
    exact first.1.bind fun key => first.2.bind fun value =>
      (settles_orStop _).bind fun obj => ih obj

end Calls

/-! ## Expressions -/

section Expressions

variable (floats : Floats) (context : Context)

theorem settles_literal (value : Literal) :
    Settles (literal fuelLoops value) (literal watchedLoops value) := by
  cases value with
  | int n => exact settles_orStop _
  | _ => exact settles_pure _

mutual

theorem settles_evaluate : (expr : Expr) →
    Settles (evaluate fuelLoops floats context expr) (evaluate watchedLoops floats context expr)
  | .LiteralExpr value => settles_literal value
  | .VarExpr _ => settles_pure _
  | .BinaryExpr _ left right =>
    (settles_evaluate left).bind fun _ => (settles_evaluate right).bind fun _ =>
      settles_orStop _
  | .TernaryExpr condition true_expr false_expr =>
    (settles_evaluate condition).bind fun _ =>
      .ite (settles_evaluate true_expr) (settles_evaluate false_expr)
  | .TestExpr expr _ _ => (settles_evaluate expr).bind fun _ => settles_pure _
  | .FilterExpr left name args =>
    (settles_evaluate left).bind fun val =>
      settles_filter floats val name (settles_evaluateArgs args)
  | .ListExpr items =>
    (settles_sequence (settles_evaluateAll items)).bind fun _ => settles_pure _
  | .ObjectExpr items => settles_setItems (settles_evaluateItems items) _
  | .CallExpr func_name args => settles_call context func_name (settles_evaluateArgs args)
  | .SliceExpr start stop step =>
    (settles_evaluateBound start).bind fun _ => (settles_evaluateBound stop).bind fun _ =>
      (settles_evaluateBound step).bind fun _ => settles_pure _
  | .GetItemExpr object key =>
    (settles_evaluate object).bind fun obj_val => (settles_evaluate key).bind fun key_val =>
      settles_getItem obj_val key_val
  | .MethodCallExpr object method args =>
    (settles_evaluate object).bind fun obj_val =>
      settles_methodCall obj_val method (settles_evaluateAll args)
  | .GetAttrExpr object _ => (settles_evaluate object).bind fun _ => settles_orStop _

theorem settles_evaluateAll : (exprs : List Expr) →
    List.Forall₂ Settles (evaluateAll fuelLoops floats context exprs)
      (evaluateAll watchedLoops floats context exprs)
  | [] => .nil
  | expr :: exprs => .cons (settles_evaluate expr) (settles_evaluateAll exprs)

theorem settles_evaluateArgs : (args : List (String × Expr)) →
    List.Forall₂ ArgSettles (evaluateArgs fuelLoops floats context args)
      (evaluateArgs watchedLoops floats context args)
  | [] => .nil
  | (_, expr) :: args => .cons ⟨rfl, settles_evaluate expr⟩ (settles_evaluateArgs args)

theorem settles_evaluateItems : (items : List (Expr × Expr)) →
    List.Forall₂ (fun run outcome => Settles run.1 outcome.1 ∧ Settles run.2 outcome.2)
      (evaluateItems fuelLoops floats context items)
      (evaluateItems watchedLoops floats context items)
  | [] => .nil
  | (key, value) :: items =>
    .cons ⟨settles_evaluate key, settles_evaluate value⟩ (settles_evaluateItems items)

theorem settles_evaluateBound : (bound : Option Expr) →
    Settles (evaluateBound fuelLoops floats context bound)
      (evaluateBound watchedLoops floats context bound)
  | none => settles_pure _
  | some expr => settles_evaluate expr

end

end Expressions

/-! ## Nodes -/

section Nodes

variable (floats : Floats)

theorem settles_accepts (context : Context) (loop_vars : List String)
    {filter_expr : Option (Context → Run Json)} {filter_expr' : Option (Context → Outcome Json)}
    (settle : Option.Rel (fun run outcome => ∀ context, Settles (run context) (outcome context))
      filter_expr filter_expr') (item : Json) :
    Settles (accepts fuelLoops context loop_vars filter_expr item)
      (accepts watchedLoops context loop_vars filter_expr' item) := by
  refine (settles_orStop _).bind fun temp_scope => ?_
  cases settle with
  | none => exact settles_pure true
  | some settles => exact (settles _).bind fun _ => settles_pure _

theorem settles_filterExpr (filter_expr : Option Expr) :
    Option.Rel (fun run outcome => ∀ context, Settles (run context) (outcome context))
      (filter_expr.map fun expr context => evaluate fuelLoops floats context expr)
      (filter_expr.map fun expr context => evaluate watchedLoops floats context expr) := by
  cases filter_expr with
  | none => exact .none
  | some expr => exact .some fun context => settles_evaluate floats context expr

theorem settles_rounds (loop_vars : List String) (len : Nat)
    {body : Context × List Byte → Run (Context × List Byte)}
    {body' : Context × List Byte → Outcome (Context × List Byte)}
    (settles : ∀ state, Settles (body state) (body' state)) (items : List Json) (index : Nat)
    (state : Context × List Byte) :
    Settles (rounds fuelLoops loop_vars len body index items state)
      (rounds watchedLoops loop_vars len body' index items state) := by
  induction items generalizing index state with
  | nil => exact settles_pure state
  | cons item items ih =>
    exact (settles_orStop _).bind fun _ => (settles _).bind fun _ => ih _ _

mutual

theorem settles_render : (node : Node) → (state : Context × List Byte) →
    Settles (render fuelLoops floats node state) (render watchedLoops floats node state)
  | .TextNode _, _ => settles_pure _
  | .PrintNode expr, (context, _) =>
    (settles_evaluate floats context expr).bind fun _ => settles_pure _
  | .SetNode _ value, (context, _) =>
    (settles_evaluate floats context value).bind fun _ =>
      (settles_orStop _).bind fun _ => settles_pure _
  | .IfNode condition true_body false_body, (context, _) =>
    (settles_evaluate floats context condition).bind fun _ =>
      .ite (settles_renderAll true_body _) (settles_renderAll false_body _)
  | .ForStmt loop_vars iterable body filter_expr, (context, _) =>
    (settles_evaluate floats context iterable).bind fun iter_val =>
      .ite (settles_pure _) ((settles_filtering (settles_accepts context loop_vars
            (settles_filterExpr floats filter_expr)) (loopItems iter_val)).bind fun items =>
          settles_rounds loop_vars items.length (settles_renderAll body) items 0 _)
  | .MacroNode _ _ _, state => settles_pure state

theorem settles_renderAll : (nodes : List Node) → (state : Context × List Byte) →
    Settles (renderAll fuelLoops floats nodes state) (renderAll watchedLoops floats nodes state)
  | [], state => settles_pure state
  | node :: nodes, state =>
    (settles_render node state).bind fun state => settles_renderAll nodes state

end

theorem settles_renderTemplate (nodes : List Node) (default_context context : Json)
    (functions : String → Option (List (String × Json) → Json)) :
    Settles (renderTemplate fuelLoops floats nodes default_context context functions)
      (renderTemplate watchedLoops floats nodes default_context context functions) :=
  (settles_renderAll floats nodes _).bind fun _ => settles_pure _

/-- Rendering comes to an end if and only if it does not come to a `split` with an empty
delimiter. -/
theorem renders_iff (nodes : List Node) (default_context context : Json)
    (functions : String → Option (List (String × Json) → Json)) :
    (∃ fuel,
        renderTemplate fuelLoops floats nodes default_context context functions fuel ≠ .endless) ↔
      renderTemplate watchedLoops floats nodes default_context context functions ≠ .endless :=
  (settles_renderTemplate floats nodes default_context context functions).finishes_iff

/-- `x.split('')` -/
def emptySplit : Expr := .MethodCallExpr (.VarExpr "x") "split" [.LiteralExpr (.str "")]

theorem watched_emptySplit : renderTemplate watchedLoops floats [.PrintNode emptySplit] (.object [])
      (.object [(text "x", .string (text "a"))]) (fun _ => none) = .endless :=
  rfl

def emptySplitTokens : List Token :=
  [⟨.ExpressionStart, "\x7b\x7b"⟩, ⟨.Identifier, "x"⟩, ⟨.Punctuation, "."⟩,
    ⟨.Identifier, "split"⟩, ⟨.Punctuation, "("⟩, ⟨.String, ""⟩, ⟨.Punctuation, ")"⟩,
    ⟨.ExpressionEnd, "\x7d\x7d"⟩, Token.eof]

theorem tokenize_emptySplit :
    Lexer.tokenize "\x7b\x7b x.split('') \x7d\x7d".toList = some emptySplitTokens := by
  rfl

theorem parse_emptySplit : parse 8 emptySplitTokens = .done [.PrintNode emptySplit] 8 := by
  rfl

/-- The template that splits a string by an empty one is parsed, and never rendered. -/
theorem not_renders :
    ∃ tokens fuel m_cursor, Lexer.tokenize "\x7b\x7b x.split('') \x7d\x7d".toList = some tokens ∧
        parse fuel tokens = .done [.PrintNode emptySplit] m_cursor ∧
        ∀ (floats : Floats) (fuel : Nat),
          renderTemplate fuelLoops floats [.PrintNode emptySplit] (.object [])
            (.object [(text "x", .string (text "a"))]) (fun _ => none) fuel = .endless := by
  refine ⟨emptySplitTokens, 8, 8, tokenize_emptySplit, parse_emptySplit, fun floats fuel => ?_⟩
  have settles := settles_renderTemplate floats [.PrintNode emptySplit] (.object [])
    (.object [(text "x", .string (text "a"))]) fun _ => none
  rcases settles.always fuel with goesOn | same
  · exact goesOn
  · rw [same]
    exact watched_emptySplit floats

end Nodes

end Mnn.Llm.Jinja
