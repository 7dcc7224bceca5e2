import Mnn.Foundation.FuelParser
import Mnn.Llm.JinjaLexer

/-!
# The parser of the Jinja templates

The functions that call each other are given the function they call back, and
fuel for their loops.  With `watched` set, the two loops that can go on without
taking a token are blocked when they come to such a token; the source has no
such test.
-/

namespace Mnn.Llm.Jinja

open Mnn.Foundation.FuelParser

/-! ## Syntax trees -/

inductive Literal
  | str (value : String)
  | bool (value : Bool)
  | none
  | int (value : Int)

inductive Expr
  | LiteralExpr (value : Literal)
  | VarExpr (name : String)
  | BinaryExpr (op : String) (left right : Expr)
  | TernaryExpr (condition true_expr false_expr : Expr)
  | TestExpr (expr : Expr) (test_name : String) (is_not : Bool)
  | FilterExpr (expr : Expr) (name : String) (args : List (String × Expr))
  | ListExpr (items : List Expr)
  | ObjectExpr (items : List (Expr × Expr))
  | CallExpr (name : String) (args : List (String × Expr))
  | SliceExpr (start stop step : Option Expr)
  | GetItemExpr (object index : Expr)
  | MethodCallExpr (object : Expr) (method : String) (args : List Expr)
  | GetAttrExpr (object : Expr) (name : String)

inductive Node
  | TextNode (text : String)
  | PrintNode (expr : Expr)
  | SetNode (target value : Expr)
  | IfNode (condition : Expr) (true_body false_body : List Node)
  | ForStmt (vars : List String) (iterable : Expr) (body : List Node) (filter_expr : Option Expr)
  | MacroNode (name : String) (args : List String) (body : List Node)

abbrev P (α : Type) := Parser Token α

/-! ## Tokens -/

/-- `check(type) && peek().value == value` -/
def Token.is (token : Token) (type : TokenType) (value : String) : Bool :=
  token.type == type && token.value == value

def tokenAt (m_tokens : List Token) (m_cursor : Nat) : Token := m_tokens.getD m_cursor Token.eof

def peek : P Token := fun m_tokens m_cursor =>
  .done (tokenAt m_tokens m_cursor) m_cursor

/-- `m_tokens[m_cursor + 1]`, and whether there is one more behind it. -/
def peekNext : P (Option Token × Bool) := fun m_tokens m_cursor =>
  .done (m_tokens[m_cursor + 1]?, m_cursor + 2 < m_tokens.length) m_cursor

/-- The last token is never left; the token in front of the cursor is given. -/
def advance : P Token := fun m_tokens m_cursor =>
  let m_cursor :=
    if (tokenAt m_tokens m_cursor).type = .Eof then m_cursor else m_cursor + 1
  .done (tokenAt m_tokens (m_cursor - 1)) m_cursor

/-- `if (check(type) && peek().value == value) advance();`, if it does. -/
def eat (type : TokenType) (value : String) : P Bool := do
  let token ← peek
  if token.is type value then
    let _ ← advance
    pure true
  else
    pure false

/-- `if (check(type)) advance();` -/
def eatType (type : TokenType) : P Unit := do
  let token ← peek
  if token.type = type then
    let _ ← advance
    pure ()
  else
    pure ()

/-! ## Expressions -/

section Expressions

variable (watched : Bool) (parse_expression : Bool → P Expr)

/-- The loop over operands of operators of the same rank. -/
def binaryLoop (isOperator : Token → Bool) (operand : P Expr) : Nat → Expr → P Expr
  | 0, _ => .outOfFuel
  | fuel + 1, left => do
      let token ← peek
      if isOperator token then
        let op ← advance
        let right ← operand
        binaryLoop isOperator operand fuel (.BinaryExpr op.value left right)
      else
        pure left

/-- The loop over arguments, which ends where there is no comma. -/
def argsLoop {A : Type} (argument : P A) : Nat → List A → P (List A)
  | 0, _ => .outOfFuel
  | fuel + 1, args => do
      let token ← peek
      if token.is .Punctuation ")" then
        pure args
      else
        let arg ← argument
        let more ← eat .Punctuation ","
        if more then
          argsLoop argument fuel (args ++ [arg])
        else
          pure (args ++ [arg])

/-- The arguments behind a parenthesis. -/
def parse_args {A : Type} (argument : P A) (fuel : Nat) : P (List A) := do
  let args ← argsLoop argument fuel []
  let _ ← eat .Punctuation ")"
  pure args

/-- The name of a keyword argument. -/
def parse_keyword : P String := do
  let token ← peek
  let next ← peekNext
  if token.type = .Identifier ∧ next.1.map Token.value = some "=" then
    let arg_name ← advance
    let _ ← advance
    pure arg_name.value
  else
    pure ""

def parse_argument : P (String × Expr) := do
  let arg_name ← parse_keyword
  let val ← parse_expression true
  pure (arg_name, val)

/-- The token begins no expression, and no operator behind one. -/
def Token.isIdle (token : Token) : Bool :=
  match token.type with
  | .String | .Identifier | .Number => false
  | .Punctuation => !(["[", "\x7b", "("].contains token.value)
  | .Operator =>
    !(["+", "-", "~", "|", "==", "!=", "<", ">", "<=", ">="].contains token.value)
  | _ => true

/-- An iteration of the loop over list items takes no token. -/
def Token.blocksList (token : Token) : Bool := token.isIdle && !token.is .Punctuation ","

/-- An iteration of the loop over dictionary items takes no token. -/
def Token.blocksDict (token : Token) : Bool :=
  token.isIdle && !token.is .Punctuation "," && !token.is .Punctuation ":"

def listLoop : Nat → List Expr → P (List Expr)
  | 0, _ => .outOfFuel
  | fuel + 1, items => do
      let token ← peek
      if token.is .Punctuation "]" then
        pure items
      else if watched ∧ token.blocksList then
        .blocked
      else
        let item ← parse_expression true
        let _ ← eat .Punctuation ","
        listLoop fuel (items ++ [item])

def dictLoop : Nat → List (Expr × Expr) → P (List (Expr × Expr))
  | 0, _ => .outOfFuel
  | fuel + 1, items => do
      let token ← peek
      if token.is .Punctuation "\x7d" then
        pure items
      else if watched ∧ token.blocksDict then
        .blocked
      else
        let key ← parse_expression true
        let _ ← eat .Punctuation ":"
        let val ← parse_expression true
        let _ ← eat .Punctuation ","
        dictLoop fuel (items ++ [(key, val)])

/-- An expression, unless there is a token at which a slice goes on. -/
def parse_bound (stops : Token → Bool) : P (Option Expr) := do
  let token ← peek
  if stops token then
    pure none
  else
    let expr ← parse_expression true
    pure (some expr)

/-- The index or slice behind a bracket. -/
def parse_index : P Expr := do
  let start ←
    parse_bound parse_expression fun token =>
      token.is .Punctuation ":" || token.is .Punctuation "]"
  let is_slice ← eat .Punctuation ":"
  if is_slice then
    let stop ←
      parse_bound parse_expression fun token =>
        token.is .Punctuation ":" || token.is .Punctuation "]"
    let second ← eat .Punctuation ":"
    if second then
      let step ←
        parse_bound parse_expression fun token => token.is .Punctuation "]"
      let _ ← eat .Punctuation "]"
      pure (.SliceExpr start stop step)
    else
      let _ ← eat .Punctuation "]"
      pure (.SliceExpr start stop none)
  else
    let _ ← eat .Punctuation "]"
    pure (start.getD (.LiteralExpr (.str "")))

/-- The chain of accesses. -/
def accessLoop (argsFuel : Nat) : Nat → Expr → P Expr
  | 0, _ => .outOfFuel
  | fuel + 1, expr => do
      let bracket ← eat .Punctuation "["
      if bracket then
        let index ← parse_index parse_expression
        accessLoop argsFuel fuel (.GetItemExpr expr index)
      else
        let dot ← eat .Punctuation "."
        if dot then
          let token ← peek
          if token.type = .Identifier then
            let member ← advance
            let call ← eat .Punctuation "("
            if call then
              let args ← parse_args (parse_expression true) argsFuel
              accessLoop argsFuel fuel (.MethodCallExpr expr member.value args)
            else
              accessLoop argsFuel fuel (.GetAttrExpr expr member.value)
          else
            accessLoop argsFuel fuel expr
        else
          pure expr

/-- `(int)strtol` of digits; `long` has 64 bits and saturates. -/
def numberValue (val : String) : Int :=
  let number :=
    val.toList.foldl (fun number c => 10 * number + (c.toNat - '0'.toNat)) 0
  Int.bmod (min number (2 ^ 63 - 1) : Nat) (2 ^ 32)

/-- What begins with a name. -/
def parse_name (fuel : Nat) : P Expr := do
  let name ← advance
  if name.value = "true" then
    pure (.LiteralExpr (.bool true))
  else if name.value = "false" then
    pure (.LiteralExpr (.bool false))
  else if name.value = "none" then
    pure (.LiteralExpr .none)
  else
    let call ← eat .Punctuation "("
    if call then
      let args ← parse_args (parse_argument parse_expression) fuel
      accessLoop parse_expression fuel fuel (.CallExpr name.value args)
    else
      accessLoop parse_expression fuel fuel (.VarExpr name.value)

def parse_primary (fuel : Nat) : P Expr := do
  let token ← peek
  if token.is .Punctuation "[" then
    let _ ← advance
    let items ← listLoop watched parse_expression fuel []
    let _ ← eat .Punctuation "]"
    pure (.ListExpr items)
  else if token.is .Punctuation "\x7b" then
    let _ ← advance
    let items ← dictLoop watched parse_expression fuel []
    let _ ← eat .Punctuation "\x7d"
    pure (.ObjectExpr items)
  else if token.type = .String then
    let token ← advance
    pure (.LiteralExpr (.str token.value))
  else if token.type = .Identifier then
    parse_name parse_expression fuel
  else if token.type = .Number then
    let token ← advance
    pure (.LiteralExpr (.int (numberValue token.value)))
  else if token.is .Punctuation "(" then
    let _ ← advance
    let expr ← parse_expression true
    let _ ← eat .Punctuation ")"
    pure expr
  else
    pure (.LiteralExpr (.str ""))

def parse_unary (parse_primary : P Expr) : Nat → P Expr
  | 0 => .outOfFuel
  | fuel + 1 => do
      let token ← peek
      if token.is .Operator "+" || token.is .Operator "-" then
        let op ← advance
        let right ← parse_unary parse_primary fuel
        pure (.BinaryExpr op.value (.LiteralExpr (.int 0)) right)
      else
        parse_primary

def filterLoop (argsFuel : Nat) : Nat → Expr → P Expr
  | 0, _ => .outOfFuel
  | fuel + 1, left => do
      let bar ← eat .Operator "|"
      if bar then
        let token ← peek
        if token.type = .Identifier then
          let name ← advance
          let call ← eat .Punctuation "("
          if call then
            let args ← parse_args (parse_argument parse_expression) argsFuel
            filterLoop argsFuel fuel (.FilterExpr left name.value args)
          else
            filterLoop argsFuel fuel (.FilterExpr left name.value [])
        else
          filterLoop argsFuel fuel left
      else
        pure left

def parse_filter (parse_unary : P Expr) (fuel : Nat) : P Expr := do
  let left ← parse_unary
  filterLoop parse_expression fuel fuel left

def parse_add (parse_filter : P Expr) (fuel : Nat) : P Expr := do
  let left ← parse_filter
  binaryLoop (fun token =>
      token.is .Operator "+" || token.is .Operator "-" || token.is .Operator "~")
    parse_filter fuel left

def isCompare (token : Token) : Bool := token.type == .Operator &&
      ["==", "!=", "<", ">", "<=", ">="].contains token.value ||
    token.type == .Identifier && ["in", "is", "not"].contains token.value

def compareLoop (parse_add : P Expr) : Nat → Expr → P Expr
  | 0, _ => .outOfFuel
  | fuel + 1, left => do
      let token ← peek
      if isCompare token then
        let op ← advance
        if op.value = "is" then
          let is_not ← eat .Identifier "not"
          let test_name ← advance
          compareLoop parse_add fuel (.TestExpr left test_name.value is_not)
        else if op.value = "not" then
          let isIn ← eat .Identifier "in"
          if isIn then
            let right ← parse_add
            compareLoop parse_add fuel (.BinaryExpr "not in" left right)
          else
            pure left
        else
          let right ← parse_add
          compareLoop parse_add fuel (.BinaryExpr op.value left right)
      else
        pure left

def parse_compare (parse_add : P Expr) (fuel : Nat) : P Expr := do
  let left ← parse_add
  compareLoop parse_add fuel left

def parse_not (parse_compare : P Expr) : Nat → P Expr
  | 0 => .outOfFuel
  | fuel + 1 => do
      let token ← peek
      if token.is .Identifier "not" then
        let _ ← advance
        let expr ← parse_not parse_compare fuel
        pure (.TernaryExpr expr (.LiteralExpr (.bool false)) (.LiteralExpr (.bool true)))
      else
        parse_compare

def parse_and (parse_not : P Expr) (fuel : Nat) : P Expr := do
  let left ← parse_not
  binaryLoop (fun token => token.is .Identifier "and") parse_not fuel left

def parse_or (parse_and : P Expr) (fuel : Nat) : P Expr := do
  let left ← parse_and
  binaryLoop (fun token => token.is .Identifier "or") parse_and fuel left

/-- `parse_expression`, given itself. -/
def expressionFrom (parse_or : P Expr) (allow_ternary : Bool) : P Expr := do
  let expr ← parse_or
  let token ← peek
  if allow_ternary ∧ token.is .Identifier "if" then
    let _ ← advance
    let cond ← parse_or
    let hasElse ← eat .Identifier "else"
    if hasElse then
      let else_expr ← parse_expression true
      pure (.TernaryExpr cond expr else_expr)
    else
      pure expr
  else
    pure expr

end Expressions

/-- All functions from `parse_primary` up to `parse_or`. -/
def orFrom (watched : Bool) (parse_expression : Bool → P Expr) (fuel : Nat) : P Expr :=
  let primary := parse_primary watched parse_expression fuel
  let filter :=
    parse_filter parse_expression (parse_unary primary fuel) fuel
  let compare := parse_compare (parse_add filter fuel) fuel
  parse_or (parse_and (parse_not compare fuel) fuel) fuel

def parse_expression (watched : Bool) : Nat → Bool → P Expr
  | 0, _ => .outOfFuel
  | fuel + 1, allow_ternary =>
    expressionFrom (parse_expression watched fuel)
      (orFrom watched (parse_expression watched fuel) fuel) allow_ternary

/-! ## Statements -/

section Statements

variable (parse_expression : Bool → P Expr) (parse_block : P Node)

def parse_print : P Node := do
  let _ ← advance
  let expr ← parse_expression true
  eatType .ExpressionEnd
  pure (.PrintNode expr)

/-- An iteration of a loop over a body; other tokens are skipped. -/
def parse_item : P (List Node) := do
  let token ← peek
  if token.type = .Text then
    let text ← advance
    pure [.TextNode text.value]
  else if token.type = .ExpressionStart then
    let node ← parse_print parse_expression
    pure [node]
  else if token.type = .BlockStart then
    let node ← parse_block
    pure [node]
  else
    let _ ← advance
    pure []

/-- The two tokens of an end tag, and the end of the block. -/
def endTag : P Unit := do
  let _ ← advance
  let _ ← advance
  eatType .BlockEnd

/-- The loop over a body up to an end tag. -/
def bodyLoop (isEnd : Token → Option Token × Bool → Bool) : Nat → List Node → P (List Node)
  | 0, _ => .outOfFuel
  | fuel + 1, body => do
      let token ← peek
      let next ← peekNext
      if token.type = .Eof then
        pure body
      else if isEnd token next then
        endTag
        pure body
      else
        let item ← parse_item parse_expression parse_block
        bodyLoop isEnd fuel (body ++ item)

def isEndfor (token : Token) (next : Option Token × Bool) : Bool :=
  token.type == .BlockStart && next.2 &&
    next.1.any fun tag => tag.is .Identifier "endfor"

def isEndmacro (token : Token) (next : Option Token × Bool) : Bool :=
  token.type == .BlockStart && next.1.any fun tag => tag.value == "endmacro"

def varsLoop : Nat → List String → P (List String)
  | 0, _ => .outOfFuel
  | fuel + 1, vars => do
      let token ← peek
      if token.type = .Identifier then
        let name ← advance
        let more ← eat .Punctuation ","
        if more then
          varsLoop fuel (vars ++ [name.value])
        else
          pure (vars ++ [name.value])
      else
        pure vars

/-- The filter of a loop. -/
def parse_condition : P (Option Expr) := do
  let isIf ← eat .Identifier "if"
  if isIf then
    let expr ← parse_expression true
    pure (some expr)
  else
    pure none

def parse_for (fuel : Nat) : P Node := do
  let vars ← varsLoop fuel []
  let _ ← eat .Identifier "in"
  let iterable ← parse_expression false
  let filter_expr ← parse_condition parse_expression
  eatType .BlockEnd
  let body ← bodyLoop parse_expression parse_block isEndfor fuel []
  pure (.ForStmt vars iterable body filter_expr)

/-- The tag of a block, if it is a name. -/
def blockTag (token : Token) (next : Option Token × Bool) : Option String :=
  if token.type = .BlockStart then
    match next.1 with
    | some tag => if tag.type = .Identifier then some tag.value else none
    | none => none
  else
    none

/-- The loop of `parse_if` and `parse_if_from_elif`. -/
def ifLoop : Nat → Expr → List Node → List Node → Bool → P Node
  | 0, _, _, _, _ => .outOfFuel
  | fuel + 1, condition, true_body, false_body, isElse => do
      let token ← peek
      let next ← peekNext
      if token.type = .Eof then
        pure (.IfNode condition true_body false_body)
      else if blockTag token next = some "endif" then
        endTag
        pure (.IfNode condition true_body false_body)
      else if blockTag token next = some "else" then
        endTag
        ifLoop fuel condition true_body false_body true
      else if blockTag token next = some "elif" then
        let _ ← advance
        let _ ← advance
        let elif_cond ← parse_expression true
        eatType .BlockEnd
        let node ← ifLoop fuel elif_cond [] [] false
        pure (.IfNode condition true_body (false_body ++ [node]))
      else
        let item ← parse_item parse_expression parse_block
        if isElse then
          ifLoop fuel condition true_body (false_body ++ item) true
        else
          ifLoop fuel condition (true_body ++ item) false_body false

def parse_if (fuel : Nat) : P Node := do
  let condition ← parse_expression true
  eatType .BlockEnd
  ifLoop parse_expression parse_block fuel condition [] [] false

def parse_set : P Node := do
  let target ← parse_expression true
  let _ ← eat .Operator "="
  let value ← parse_expression true
  eatType .BlockEnd
  pure (.SetNode target value)

/-- The default value of an argument, which is not used. -/
def parse_default : P Unit := do
  let isDefault ← eat .Operator "="
  if isDefault then
    let _ ← parse_expression true
    pure ()
  else
    pure ()

/-- The argument of a macro, if there is a name. -/
def parse_parameter : P (List String) := do
  let token ← peek
  if token.type = .Identifier then
    let name ← advance
    parse_default parse_expression
    pure [name.value]
  else
    pure []

def parse_macro (fuel : Nat) : P Node := do
  let name ← advance
  let call ← eat .Punctuation "("
  let args ←
    if call then
      parse_args (parse_parameter parse_expression) fuel
    else
      pure []
  eatType .BlockEnd
  let body ← bodyLoop parse_expression parse_block isEndmacro fuel []
  pure (.MacroNode name.value args.flatten body)

def skipBlock : Nat → P Unit
  | 0 => .outOfFuel
  | fuel + 1 => do
      let token ← peek
      if token.type = .Eof then
        pure ()
      else if token.type = .BlockEnd then
        let _ ← advance
        pure ()
      else
        let _ ← advance
        skipBlock fuel

/-- `parse_block`, given itself. -/
def blockFrom (fuel : Nat) : P Node := do
  let _ ← advance
  let cmd ← advance
  if cmd.is .Identifier "for" then
    parse_for parse_expression parse_block fuel
  else if cmd.is .Identifier "if" then
    parse_if parse_expression parse_block fuel
  else if cmd.is .Identifier "set" then
    parse_set parse_expression
  else if cmd.is .Identifier "macro" then
    parse_macro parse_expression parse_block fuel
  else
    skipBlock fuel
    pure (.TextNode "")

end Statements

def parse_block (watched : Bool) : Nat → P Node
  | 0 => .outOfFuel
  | fuel + 1 =>
    blockFrom (parse_expression watched fuel) (parse_block watched fuel) fuel

/-- `parse`, or a watched run of it. -/
def parseWith (watched : Bool) (fuel : Nat) : P (List Node) :=
  bodyLoop (parse_expression watched fuel) (parse_block watched fuel) (fun _ _ => false) fuel []

def parse (fuel : Nat) (m_tokens : List Token) : Outcome (List Node) :=
  parseWith false fuel m_tokens 0

end Mnn.Llm.Jinja
