import Mnn.Llm.JinjaEval

/-!
# Evaluation of expressions and rendering of nodes

Expressions do not change the context.  A node is rendered behind the text so far, and
only `set` changes variables, in the innermost scope or, for an attribute, in the one
where the variable was found.
-/

namespace Mnn.Llm.Jinja

open Mnn.Foundation.Settling
open Mnn.Llm.Ujson

/-! ## Contexts -/

/-- The functions of a template, and its scopes, the innermost one first. -/
structure Context where
  scopes : List Json
  functions : String → Option (List (String × Json) → Json)

namespace Context

def get (context : Context) (name : String) : Json :=
  match context.scopes.find? fun scope => scope.contains (text name) with
  | some scope => scope.item (text name)
  | none => undefined_init

def push_scope (context : Context) (scope : Json) : Context :=
  { context with scopes := scope :: context.scopes }

/-- One scope is always left. -/
def pop_scope (context : Context) : Context :=
  if 1 < context.scopes.length then { context with scopes := context.scopes.tail }
  else context

def set (context : Context) (name : String) (val : Json) : Option Context := do
  let scope ← setItem (context.scopes.headD .null) (text name) val
  return { context with scopes := scope :: context.scopes.tail }

/-- The scopes with a new value for the variable, if one of them has it. -/
def updateScopes (name : String) (val : Json) : List Json → Option (Option (List Json))
  | [] => some none
  | scope :: scopes =>
    if scope.contains (text name) then do
      let scope ← setItem scope (text name) val
      return some (scope :: scopes)
    else do
      let scopes ← updateScopes name val scopes
      return scopes.map (scope :: ·)

def update (context : Context) (name : String) (val : Json) : Option Context := do
  match ← updateScopes name val context.scopes with
  | some scopes => return { context with scopes := scopes }
  | none => set context name val

end Context

section Evaluation

variable {m : Type → Type} [Monad m] (loops : Loops m) (floats : Floats)

/-! ## Expressions -/

def literal : Literal → m Json
  | .str value => pure (.string (text value))
  | .bool value => pure (.bool value)
  | .none => pure .null
  | .int value => orStop loops (ofInt value)

def getAttr (obj_val : Json) (name : String) : Option Json :=
  match obj_val with
  | .object members => some (((Json.object members).find (text name)).getD undefined_init)
  | .array elements => if name = "length" then ofSize elements.length else some undefined_init
  | _ => some undefined_init

/-- The arguments of a call, one after the other. -/
def argumentValues : List (String × m Json) → m (List (String × Json))
  | [] => pure []
  | (name, arg) :: args => do
      let value ← arg
      let values ← argumentValues args
      pure ((name, value) :: values)

/-- A call of a name that is not a function gives an empty string. -/
def call (context : Context) (func_name : String) (args : List (String × m Json)) : m Json :=
  match context.functions func_name with
  | some func => do
      let arg_vals ← argumentValues args
      pure (func arg_vals)
  | none => pure (.string [])

/-- The members of an object expression; a key that is not a string is empty. -/
def setItems : Json → List (m Json × m Json) → m Json
  | obj, [] => pure obj
  | obj, (key, value) :: items => do
      let key ← key
      let value ← value
      let obj ← orStop loops (setItem obj key.getString value)
      setItems obj items

mutual

def evaluate (context : Context) : Expr → m Json
  | .LiteralExpr value => literal loops value
  | .VarExpr name => pure (context.get name)
  | .BinaryExpr op left right => do
      let l ← evaluate context left
      let r ← evaluate context right
      orStop loops (binary floats op l r)
  | .TernaryExpr condition true_expr false_expr => do
      let c ← evaluate context condition
      if is_truthy c then evaluate context true_expr else evaluate context false_expr
  | .TestExpr expr test_name is_not => do
      let val ← evaluate context expr
      pure (.bool (test test_name val != is_not))
  | .FilterExpr left name args => do
      let val ← evaluate context left
      filter loops floats val name (evaluateArgs context args)
  | .ListExpr items => do
      let arr ← Foundation.Settling.sequence (evaluateAll context items)
      pure (.array arr)
  | .ObjectExpr items => setItems loops (.object []) (evaluateItems context items)
  | .CallExpr func_name args => call context func_name (evaluateArgs context args)
  | .SliceExpr start stop step => do
      let start ← evaluateBound context start
      let stop ← evaluateBound context stop
      let step ← evaluateBound context step
      pure (sliceKey start stop step)
  | .GetItemExpr object key => do
      let obj_val ← evaluate context object
      let key_val ← evaluate context key
      loops.getItem obj_val key_val
  | .MethodCallExpr object method args => do
      let obj_val ← evaluate context object
      methodCall loops obj_val method (evaluateAll context args)
  | .GetAttrExpr object name => do
      let obj_val ← evaluate context object
      orStop loops (getAttr obj_val name)

def evaluateAll (context : Context) : List Expr → List (m Json)
  | [] => []
  | expr :: exprs => evaluate context expr :: evaluateAll context exprs

def evaluateArgs (context : Context) : List (String × Expr) → List (String × m Json)
  | [] => []
  | (name, expr) :: args => (name, evaluate context expr) :: evaluateArgs context args

def evaluateItems (context : Context) : List (Expr × Expr) → List (m Json × m Json)
  | [] => []
  | (key, value) :: items =>
    (evaluate context key, evaluate context value) :: evaluateItems context items

/-- A bound of a slice that is not written is null. -/
def evaluateBound (context : Context) : Option Expr → m Json
  | none => pure .null
  | some expr => evaluate context expr

end

/-! ## Nodes -/

/-- The scope in which the variables of a loop have an item, or its elements. -/
def loopScope (loop_vars : List String) (item : Json) : Option Json :=
  match loop_vars with
  | [] => some .null
  | [var] => setItem .null (text var) item
  | var :: vars =>
    match item with
    | .array elements =>
      if (var :: vars).length ≤ elements.length then
        ((var :: vars).zip elements).foldlM
          (fun scope bound => setItem scope (text bound.1) bound.2) .null
      else
        setItem .null (text var) item
    | _ => setItem .null (text var) item

/-- The variable `loop`. -/
def loopObject (index len : Nat) : Option Json := do
  let index0 ← ofSize index
  let index1 ← ofSize (index + 1)
  let length ← ofSize len
  return .object [(text "index0", index0), (text "index", index1),
    (text "first", .bool (index = 0)), (text "last", .bool (index + 1 = len)),
    (text "length", length)]

/-- The scope of a round. -/
def roundScope (loop_vars : List String) (index len : Nat) (item : Json) : Option Json := do
  let loop_scope ← loopScope loop_vars item
  let loop_obj ← loopObject index len
  setItem loop_scope (text "loop") loop_obj

/-- What is looped over; of an object the sorted keys. -/
def loopItems : Json → List Json
  | .array elements => elements
  | .object members =>
    ((members.map fun member => c_str member.1).insertionSort (· ≤ ·)).map .string
  | _ => []

/-- Whether the filter of a loop accepts an item. -/
def accepts (context : Context) (loop_vars : List String)
    (filter_expr : Option (Context → m Json)) (item : Json) : m Bool := do
  let temp_scope ← orStop loops (loopScope loop_vars item)
  match filter_expr with
  | none => pure true
  | some filter_expr => do
      let res ← filter_expr (context.push_scope temp_scope)
      pure (is_truthy res)

/-- The rounds of a loop from an index on, over what was accepted. -/
def rounds (loop_vars : List String) (len : Nat)
    (body : Context × List Byte → m (Context × List Byte)) :
    Nat → List Json → Context × List Byte → m (Context × List Byte)
  | _, [], state => pure state
  | index, item :: items, (context, out) => do
      let loop_scope ← orStop loops (roundScope loop_vars index len item)
      let (context, out) ← body (context.push_scope loop_scope, out)
      rounds loop_vars len body (index + 1) items (context.pop_scope, out)

/-- What `SetNode::render` does with the value. -/
def assign (context : Context) (target : Expr) (val : Json) : Option Context :=
  match target with
  | .VarExpr name => context.set name val
  | .GetAttrExpr (.VarExpr var) attr =>
    if (context.get var).is_null then
      some context
    else do
      let obj ← setItem (context.get var) (text attr) val
      context.update var obj
  | _ => some context

/-- What is printed for a value. -/
def printed (val : Json) : List Byte :=
  if is_undefined val then []
  else
    match val with
    | .string s => s
    | _ => val.dump floats.print

mutual

def render : Node → Context × List Byte → m (Context × List Byte)
  | .TextNode string, (context, out) => pure (context, out ++ text string)
  | .PrintNode expr, (context, out) => do
      let val ← evaluate loops floats context expr
      pure (context, out ++ printed floats val)
  | .SetNode target value, (context, out) => do
      let val ← evaluate loops floats context value
      let context ← orStop loops (assign context target val)
      pure (context, out)
  | .IfNode condition true_body false_body, (context, out) => do
      let res ← evaluate loops floats context condition
      if is_truthy res then renderAll true_body (context, out)
      else renderAll false_body (context, out)
  | .ForStmt loop_vars iterable body filter_expr, (context, out) => do
      let iter_val ← evaluate loops floats context iterable
      if is_undefined iter_val then
        pure (context, out)
      else do
        let filter := filter_expr.map fun expr context => evaluate loops floats context expr
        let items ← filtering (accepts loops context loop_vars filter) (loopItems iter_val)
        rounds loops loop_vars items.length (fun state => renderAll body state) 0 items
          (context, out)
  | .MacroNode _ _ _, state => pure state

def renderAll : List Node → Context × List Byte → m (Context × List Byte)
  | [], state => pure state
  | node :: nodes, state => do
      let state ← render node state
      renderAll nodes state

end

/-- `Template::render`; an empty context is not pushed. -/
def renderTemplate (nodes : List Node) (default_context context : Json)
    (functions : String → Option (List (String × Json) → Json)) : m (List Byte) := do
  let scopes :=
    match context with
    | .object (_ :: _) | .array (_ :: _) => [context, default_context]
    | _ => [default_context]
  let state ← renderAll loops floats nodes ({ scopes := scopes, functions := functions }, [])
  pure state.2

end Evaluation

end Mnn.Llm.Jinja
