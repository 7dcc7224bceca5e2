import Mathlib

/-!
# Loops without a condition graph

`WhileModule` for an ONNX `Loop`.  Step, condition, carried values and scanned
values are at fixed offsets in vectors which are changed in place.  The condition
that the body is given is never changed, and a scan of no steps has no value.
-/

namespace Mnn.Express.WhileModule

open List

/-- What a variable may hold; `readInt` is `readMap<int>()[0]`. -/
class Var (V : Type) extends Inhabited V where
  readInt : V → Int
  ofStep : Int → V

export Var (readInt ofStep)

variable {V : Type} [Var V] {N K : Nat}

/-- A body takes the step, the condition and the carried values, and has a scan besides. -/
abbrev Body (V : Type) (N K : Nat) := V → V → (Fin N → V) → V × (Fin N → V) × (Fin K → V)

/-- The carried values and the scans of a loop with so many steps to go. -/
def loop (body : Body V N K) : Nat → Int → V → (Fin N → V) → (Fin N → V) × List (Fin K → V)
  | 0, _, _, carried => (carried, [])
  | left + 1, step, cond, carried =>
    if 0 < readInt cond then
      let next := body (ofStep step) cond carried
      let rest := loop body left (step + 1) next.1 next.2.1
      (rest.1, next.2.2 :: rest.2)
    else
      (carried, [])

/-- What an operator with the loop has: the carried values, and a stack for each scan. -/
def loopOutputs (body : Body V N K) (limit first : V) (carried : Fin N → V) :
    List V × List (Option (List V)) :=
  let last := loop body (readInt limit).toNat 0 first carried
  (ofFn last.1, ofFn fun k => some (last.2.map fun scan => scan k))

/-- In every step the body answers to the condition as it would to the first one. -/
def SeesFirst (body : Body V N K) (first : V) : Nat → Int → V → (Fin N → V) → Prop
  | 0, _, _, _ => True
  | left + 1, step, cond, carried => 0 < readInt cond →
      body (ofStep step) cond carried = body (ofStep step) first carried ∧
        SeesFirst body first left (step + 1) (body (ofStep step) cond carried).1
          (body (ofStep step) cond carried).2.1

/-! ## The module -/

/-- `mBody->onForward`, over vectors. -/
def forward (body : Body V N K) (bodyInputs : List V) : List V :=
  let next := body (bodyInputs.getD 0 default) (bodyInputs.getD 1 default) fun i =>
    bodyInputs.getD (i + 2) default
  next.1 :: (ofFn next.2.1 ++ ofFn next.2.2)

structure State (V : Type) where
  step : Int
  cond : Int
  bodyInputs : List V
  bodyOutputs : List V
  spans : List (List V)

/-- One iteration of the `while` loop. -/
def iterate (body : Body V N K) (state : State V) : State V :=
  let bodyInputs := state.bodyInputs.set 0 (ofStep state.step)
  let bodyOutputs := forward body bodyInputs
  { step := state.step + 1
    cond := readInt (bodyOutputs.getD 0 default)
    bodyInputs := bodyInputs.take 2 ++ (range N).map fun i => bodyOutputs.getD (i + 1) default
    bodyOutputs := bodyOutputs
    spans := (range K).map fun i =>
      state.spans.getD i [] ++ [bodyOutputs.getD (1 + N + i) default] }

/-- The `while` loop, with fuel. -/
def iterations (body : Body V N K) (limit : Int) : Nat → State V → Option (State V)
  | 0, state => if state.step < limit ∧ 0 < state.cond then none else some state
  | fuel + 1, state =>
    if state.step < limit ∧ 0 < state.cond then
      iterations body limit fuel (iterate body state)
    else
      some state

/-- `_Stack`, which has a shape only if there is something to stack. -/
def stack (values : List V) : Option (List V) := if values = [] then none else some values

/-- `WhileModule::onForward` without a condition graph: the carried values and the stacks. -/
def onForward (body : Body V N K) (inputs : List V) : Option (List V × List (Option (List V))) :=
  let limit := readInt (inputs.getD 0 default)
  let cond := readInt (inputs.getD 1 default)
  let start : State V := ⟨0, cond, inputs, [], replicate K []⟩
  if 0 < limit ∧ 0 < cond then do
    let last ← iterations body limit limit.toNat start
    return ((range N).map fun i => last.bodyOutputs.getD (i + 1) default,
      (range K).map fun i => stack (last.spans.getD i []))
  else
    some ((range N).map fun i => inputs.getD (i + 2) default,
      (range K).map fun _ => stack [])

/-! ## The run of the vectors -/

/-- The vectors hold what the loop does, but for the condition that the body is given. -/
structure Simulates (first : V) (state : State V) (step : Int) (cond : V) (carried : Fin N → V)
    (scans : List (Fin K → V)) : Prop where
  isStep : state.step = step
  isCond : state.cond = readInt cond
  bodyInputs : ∃ old, state.bodyInputs = old :: first :: ofFn carried
  spans : state.spans = ofFn fun k => scans.map fun scan => scan k

omit [Var V] in
theorem getD_ofFn {α : Type} {n : Nat} (values : Fin n → α) {i : Nat} (less : i < n) (other : α) :
    (ofFn values).getD i other = values ⟨i, less⟩ := by
  rw [getD_eq_getElem?_getD, List.getElem?_ofFn, dif_pos less]
  rfl

omit [Var V] in
theorem map_range_eq_ofFn {α : Type} {n : Nat} {value : Nat → α} {values : Fin n → α}
    (same : ∀ i (less : i < n), value i = values ⟨i, less⟩) : (range n).map value = ofFn values := by
  refine List.ext_getElem (by simp) fun i less less' => ?_
  rw [getElem_map, List.getElem_range, List.getElem_ofFn]
  exact same i _

variable {body : Body V N K} {first cond : V} {step limit : Int} {carried : Fin N → V}
  {scans : List (Fin K → V)} {state : State V}

variable (next : V × (Fin N → V) × (Fin K → V))

theorem carried_eq :
    ((range N).map fun i =>
      (next.1 :: (ofFn next.2.1 ++ ofFn next.2.2)).getD (i + 1) default) = ofFn next.2.1 := by
  refine map_range_eq_ofFn fun i less => ?_
  rw [getD_cons_succ, getD_append _ _ _ _ (by rwa [length_ofFn]), getD_ofFn]

theorem scanned_eq {i : Nat} (less : i < K) :
    (next.1 :: (ofFn next.2.1 ++ ofFn next.2.2)).getD (1 + N + i) default = next.2.2 ⟨i, less⟩ := by
  have isPlace : 1 + N + i = (N + i) + 1 := by omega
  rw [isPlace, getD_cons_succ, getD_append_right _ _ _ _ (by rw [length_ofFn]; omega), length_ofFn,
    Nat.add_sub_cancel_left, getD_ofFn]

theorem Simulates.iterate (simulates : Simulates first state step cond carried scans)
    (sees : body (ofStep step) cond carried = body (ofStep step) first carried) :
    let next := body (ofStep step) cond carried
    Simulates first (iterate body state) (step + 1) next.1 next.2.1 (scans ++ [next.2.2]) ∧
      (iterate body state).bodyOutputs = next.1 :: (ofFn next.2.1 ++ ofFn next.2.2) := by
  intro next
  obtain ⟨old, areInputs⟩ := simulates.bodyInputs
  have areOutputs : forward body (state.bodyInputs.set 0 (ofStep state.step)) =
      next.1 :: (ofFn next.2.1 ++ ofFn next.2.2) := by
    have areCarried : (fun i : Fin N =>
        (ofStep step :: first :: ofFn carried).getD (i + 2) default) = carried :=
      funext fun i => getD_ofFn carried i.isLt default
    rw [forward, areInputs, simulates.isStep, set_cons_zero, areCarried]
    exact congrArg (fun next : V × (Fin N → V) × (Fin K → V) =>
      next.1 :: (ofFn next.2.1 ++ ofFn next.2.2)) sees.symm
  refine ⟨⟨?_, ?_, ⟨ofStep state.step, ?_⟩, ?_⟩, areOutputs⟩
  · rw [WhileModule.iterate, simulates.isStep]
  · rw [WhileModule.iterate, areOutputs]
    rfl
  · rw [WhileModule.iterate, areOutputs, areInputs]
    exact congrArg _ (congrArg _ (carried_eq next))
  · rw [WhileModule.iterate, areOutputs, simulates.spans]
    refine map_range_eq_ofFn fun i less => ?_
    rw [scanned_eq next less, getD_ofFn _ less, map_append]
    rfl

theorem Simulates.iterations (simulates : Simulates first state step cond carried scans)
    {left : Nat} (isLeft : (limit - step).toNat = left)
    (sees : SeesFirst body first left step cond carried)
    (areOutputs : ∃ scan : Fin K → V, state.bodyOutputs = cond :: (ofFn carried ++ ofFn scan)) :
    ∃ last lastCond, iterations body limit left state = some last ∧
      (∃ scan : Fin K → V, last.bodyOutputs =
        lastCond :: (ofFn (loop body left step cond carried).1 ++ ofFn scan)) ∧
      last.spans = ofFn fun k =>
        (scans ++ (loop body left step cond carried).2).map fun scan => scan k := by
  induction left generalizing state step cond carried scans with
  | zero =>
    rw [WhileModule.iterations, simulates.isStep, if_neg (by omega)]
    refine ⟨state, cond, rfl, areOutputs, ?_⟩
    rw [loop, append_nil]
    exact simulates.spans
  | succ left ih =>
    rw [WhileModule.iterations, simulates.isStep, simulates.isCond, loop]
    by_cases goesOn : 0 < readInt cond
    · obtain ⟨sees, seesLater⟩ := sees goesOn
      obtain ⟨simulates', areOutputs'⟩ := simulates.iterate sees
      rw [if_pos ⟨by omega, goesOn⟩, if_pos goesOn]
      obtain ⟨last, lastCond, isLast, areOutputs, areSpans⟩ :=
        ih simulates' (by omega) seesLater ⟨_, areOutputs'⟩
      refine ⟨last, lastCond, isLast, areOutputs, ?_⟩
      rw [areSpans, append_assoc]
      rfl
    · rw [if_neg fun both => goesOn both.2, if_neg goesOn]
      refine ⟨state, cond, rfl, areOutputs, ?_⟩
      rw [append_nil]
      exact simulates.spans

/-- Integers as variables. -/
instance : Var Int := ⟨id, id⟩

/-- Each step is scanned, and carried on. -/
def scanSteps : Body Int 1 1 := fun step cond _ => (cond, fun _ => step, fun _ => step)

end Mnn.Express.WhileModule
