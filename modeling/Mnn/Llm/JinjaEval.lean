import Mnn.Foundation.Occurrences
import Mnn.Foundation.Settling
import Mnn.Llm.JinjaItems
import Mnn.Llm.JinjaParser
import Mnn.Llm.JinjaText

/-!
# Rendering of templates

The evaluation of expressions and the rendering of nodes.  The loops that search in
strings and the one over a slice are given, so that they can be run with fuel; all
others go over the template or over a value.  What is not defined stops a run: an
integer that does not fit, a failed assertion of the library, and doubles that are
not finite.

Macros are left out: they are declared without effect, and no call finds one.
-/

namespace Mnn.Llm.Jinja

open Mnn.Foundation.Occurrences
open Mnn.Foundation.Settling
open Mnn.Llm.Ujson

/-! ## Values -/

def undefined_init : Json := .object [(text "__jinja_undefined__", .bool true)]

def is_undefined (val : Json) : Bool := val.contains (text "__jinja_undefined__")

def is_truthy (val : Json) : Bool :=
  if is_undefined val then false
  else
    match val with
    | .bool b => b
    | .string s => s ≠ []
    | .number (.integer n _) => n ≠ 0
    | .number (.double x _) => x ≠ 0
    | .array elements => elements ≠ []
    | .object members => members ≠ []
    | .null => false

/-- The arithmetic of doubles, without a result that is not finite, and their text. -/
structure Floats where
  print : ℚ → List Byte
  add : ℚ → ℚ → Option { x : ℚ // IsDouble x }
  sub : ℚ → ℚ → Option { x : ℚ // IsDouble x }
  mul : ℚ → ℚ → Option { x : ℚ // IsDouble x }
  div : ℚ → ℚ → Option { x : ℚ // IsDouble x }

/-- A signed integer, which overflows when it does not fit. -/
def ofInt (n : Int) : Option Json :=
  if inside : kMinInt64 ≤ n ∧ n ≤ kMaxInt64 then
    some (.number (.integer n ⟨inside.1, inside.2.trans (by decide)⟩))
  else
    none

/-- A `size_t`. -/
def ofSize (n : Nat) : Option Json :=
  if inside : (n : Int) ≤ kMaxUint64 then
    some (.number (.integer n ⟨Int.le_trans (by decide) (Int.natCast_nonneg n), inside⟩))
  else
    none

def ofDouble (x : Option { x : ℚ // IsDouble x }) : Option Json :=
  x.map fun x => .number (.double x.1 x.2)

/-- The members with this value for the first one with the key. -/
def replaceFirst (key : List Byte) (value : Json) :
    List (List Byte × Json) → List (List Byte × Json)
  | [] => []
  | member :: members =>
    if member.1 = key then (member.1, value) :: members
    else member :: replaceFirst key value members

/-- `json[key] = value`; a new key with a NUL is not found again. -/
def setItem (json : Json) (key : List Byte) (value : Json) : Option Json :=
  let members :=
    match json with
    | .object members => members
    | _ => []
  if (Json.object members).contains key then
    some (.object (replaceFirst (c_str key) value members))
  else if 0 ∈ key then
    none
  else
    some (.object (members ++ [(key, value)]))

/-! ## Operators and tests -/

def Number.is_float : Number → Bool
  | .integer _ _ => false
  | .double _ _ => true

/-- An operation on two numbers, on doubles if one of them is. -/
def arithmetic (onDoubles : ℚ → ℚ → Option { x : ℚ // IsDouble x })
    (onIntegers : Int → Int → Int) (l r : Number) : Option Json :=
  if Number.is_float l ∨ Number.is_float r then
    ofDouble (onDoubles l.asDouble r.asDouble)
  else do
    let l ← (Json.number l).getLong
    let r ← (Json.number r).getLong
    ofInt (onIntegers l r)

section Operators

variable (floats : Floats)

def plus (l r : Json) : Option Json :=
  match l, r with
  | .string l, .string r => some (.string (l ++ r))
  | .number l, .number r => arithmetic floats.add (· + ·) l r
  | .array l, .array r => some (.array (l ++ r))
  | .array l, r => some (.array (l ++ [r]))
  | l, .array r => some (.array (l :: r))
  | _, _ => some (.string [])

def minus (l r : Json) : Option Json :=
  match l, r with
  | .number l, .number r => arithmetic floats.sub (· - ·) l r
  | _, _ => some (.string [])

def times (l r : Json) : Option Json :=
  match l, r with
  | .number l, .number r => arithmetic floats.mul (· * ·) l r
  | _, _ => some (.string [])

def divided (l r : Json) : Option Json :=
  match l, r with
  | .number l, .number r =>
    if r.asDouble ≠ 0 then ofDouble (floats.div l.asDouble r.asDouble) else ofInt 0
  | _, _ => some (.string [])

/-- The remainder by -1 of the least integer overflows. -/
def modulo (l r : Json) : Option Json :=
  if l.is_number_integer ∧ r.is_number_integer then do
    let l ← l.getLong
    let r ← r.getLong
    if r ≠ 0 then
      if l = kMinInt64 ∧ r = -1 then none else ofInt (l.tmod r)
    else
      some (.string [])
  else
    some (.string [])

/-- `l in r` -/
def isIn (l r : Json) : Bool :=
  match l, r with
  | l, .array elements => elements.any fun el => el.compare l = 0
  | .string k, .object members => (Json.object members).contains k
  | .string l, .string r => (Foundation.Occurrences.find l r).isSome
  | _, _ => false

/-- `BinaryExpr::evaluate` of the values of its operands. -/
def binary (op : String) (l r : Json) : Option Json :=
  if op = "+" then plus floats l r
  else if op = "-" then minus floats l r
  else if op = "*" then times floats l r
  else if op = "/" then divided floats l r
  else if op = "%" then modulo l r
  else if op = "==" then some (.bool (l.compare r = 0))
  else if op = "!=" then some (.bool (l.compare r ≠ 0))
  else if op = "<" then some (.bool (l.compare r < 0))
  else if op = ">" then some (.bool (r.compare l < 0))
  else if op = "<=" then some (.bool (¬r.compare l < 0))
  else if op = ">=" then some (.bool (¬l.compare r < 0))
  else if op = "in" then some (.bool (isIn l r))
  else if op = "not in" then some (.bool (!isIn l r))
  else if op = "and" then some (.bool (is_truthy l && is_truthy r))
  else if op = "or" then some (.bool (is_truthy l || is_truthy r))
  else if op = "~" then
    some (.string (to_python_string floats.print l ++ to_python_string floats.print r))
  else some (.string [])

end Operators

/-- The test of `TestExpr::evaluate`, without its negation. -/
def test (test_name : String) (val : Json) : Bool :=
  if test_name = "defined" then !is_undefined val
  else if test_name = "undefined" then is_undefined val
  else if test_name = "none" then val.is_null && !is_undefined val
  else
    match val with
    | .bool b =>
      test_name = "boolean" ∨ (test_name = "true" ∧ b) ∨ (test_name = "false" ∧ ¬b)
    | .string _ => test_name = "string" ∨ test_name = "sequence" ∨ test_name = "iterable"
    | .number _ => test_name = "number"
    | .array _ => test_name = "sequence" ∨ test_name = "iterable"
    | .object _ => test_name = "mapping"
    | .null => false

def whitespace : List Byte := text " \n\r\t"

def lstrip (chars s : List Byte) : List Byte := s.dropWhile fun c => c ∈ chars

def rstrip (chars s : List Byte) : List Byte := s.rdropWhile fun c => c ∈ chars

def toupper (c : Byte) : Byte :=
  if 0x61 ≤ c ∧ c ≤ 0x7A then c - 0x20 else c

def tolower (c : Byte) : Byte :=
  if 0x41 ≤ c ∧ c ≤ 0x5A then c + 0x20 else c

def capitalize : List Byte → List Byte
  | [] => []
  | c :: s => toupper c :: s.map tolower

/-! ## Methods and filters -/

/-- The loops that are not over the template or over a value. -/
structure Loops (m : Type → Type) where
  stop : {α : Type} → m α
  split : (s delim : List Byte) → m (List (List Byte))
  replace : (s before after : List Byte) → m (List Byte)
  getItem : (obj_val key_val : Json) → m Json

section Calls

variable {m : Type → Type} [Monad m] (loops : Loops m) (floats : Floats)

def orStop {α : Type} : Option α → m α
  | some result => pure result
  | none => loops.stop

/-- The string of the first argument, or what there is without one. -/
def firstString (without : List Byte) : List (m Json) → m (List Byte)
  | [] => pure without
  | arg :: _ => do
      let arg ← arg
      pure arg.getString

/-- `MethodCallExpr::evaluate` of the value of its object. -/
def methodCall (obj_val : Json) (method : String) (args : List (m Json)) : m Json :=
  match obj_val with
  | .string s =>
    if method = "startswith" then
      match args with
      | [] => pure (.string [])
      | arg :: _ => do
          let arg ← arg
          pure (.bool (arg.getString.isPrefixOf s))
    else if method = "endswith" then
      match args with
      | [] => pure (.string [])
      | arg :: _ => do
          let arg ← arg
          pure (.bool (arg.getString.isSuffixOf s))
    else if method = "split" then do
      let delim ← firstString (text " ") args
      let tokens ← loops.split s delim
      pure (.array (tokens.map .string))
    else if method = "lstrip" then do
      let chars ← firstString whitespace args
      pure (.string (lstrip chars s))
    else if method = "rstrip" then do
      let chars ← firstString whitespace args
      pure (.string (rstrip chars s))
    else if method = "strip" then do
      let chars ← firstString whitespace args
      pure (.string (rstrip chars (lstrip chars s)))
    else if method = "replace" then
      match args with
      | before :: after :: _ => do
          let before ← before
          let after ← after
          if before.getString = [] then
            pure (.string s)
          else
            let res ← loops.replace s before.getString after.getString
            pure (.string res)
      | _ => pure (.string [])
    else
      pure (.string [])
  | _ => pure (.string [])

/-- The indentation that the arguments of `tojson` give. -/
def indentOf : Int → List (String × m Json) → m Int
  | indent, [] => pure indent
  | indent, (name, arg) :: args =>
    if name = "indent" then do
      let v ← arg
      if v.is_number_integer then do
        let n ← orStop loops v.getLong
        indentOf (n.bmod (2 ^ 32)) args
      else
        indentOf indent args
    else
      indentOf indent args

/-- The attribute that the arguments of `map` name. -/
def attributeOf : List Byte → List (String × m Json) → m (List Byte)
  | attr, [] => pure attr
  | attr, (name, arg) :: args =>
    if name = "attribute" ∨ name = "" ∧ attr = [] then do
      let v ← arg
      match v with
      | .string s => attributeOf s args
      | _ => attributeOf attr args
    else
      attributeOf attr args

/-- The separator that the first argument of `join` gives. -/
def separatorOf : List (String × m Json) → m (List Byte)
  | [] => pure []
  | (_, arg) :: _ => do
      let v ← arg
      pure v.getString

/-- `FilterExpr::evaluate` of the value of what is filtered. -/
def filter (val : Json) (name : String) (args : List (String × m Json)) : m Json :=
  if name = "tojson" then do
    let indent ← indentOf loops (-1) args
    pure (.string (to_json_string floats.print (if 0 ≤ indent then indent else -1) 0 val))
  else if name = "string" then
    pure (.string (to_python_string floats.print val))
  else if name = "length" then
    match val with
    | .array elements => orStop loops (ofSize elements.length)
    | .object members => orStop loops (ofSize members.length)
    | .string s => orStop loops (ofSize s.length)
    | _ => orStop loops (ofInt 0)
  else if name = "items" then
    match val with
    | .object members =>
      pure (.array (members.map fun member => .array [.string (c_str member.1), member.2]))
    | _ => pure (.array [])
  else
    match val with
    | .string s =>
      if name = "capitalize" then pure (.string (capitalize s))
      else if name = "trim" then pure (.string (rstrip whitespace (lstrip whitespace s)))
      else if name = "lower" then pure (.string (s.map tolower))
      else if name = "upper" then pure (.string (s.map toupper))
      else pure val
    | .array elements =>
      if name = "map" then do
        let attr ← attributeOf [] args
        if attr = [] then
          pure val
        else
          pure (.array (elements.map fun item => item.item attr))
      else if name = "join" then do
        let sep ← separatorOf args
        pure (.string (List.intercalate sep (elements.map (to_python_string floats.print))))
      else
        pure val
    | _ => pure val

end Calls

end Mnn.Llm.Jinja
