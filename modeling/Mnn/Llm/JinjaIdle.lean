import Mnn.Llm.JinjaProgress

/-!
# Idle tokens of the Jinja parser

An idle token is taken by no function below `parse_expression`.  So a loop that
comes to such a token and does not take it as a separator goes on for ever: each
iteration begins with the token with which the one before began.
-/

namespace Mnn.Llm.Jinja

open Mnn.Foundation.FuelParser

variable {m_tokens : List Token}

/-! ## Idle tokens are not taken -/

variable {primary operand operand' : P Expr} {isOperator blocks : Token → Bool}
  {value closing : String} {token : Token}

section Idle

variable {watched : Bool} {parse_expression : Bool → P Expr} {c : Nat}

theorem parse_primary_stays (idle : (tokenAt m_tokens c).isIdle = true) (fuel : Nat) :
    Stays (parse_primary watched parse_expression fuel m_tokens c) c := by
  obtain ⟨noString, noName, noNumber, punctuation, -⟩ := Token.idle_cases idle
  have noOpening {value : String} (opening : value ∈ ["[", "\x7b", "("]) :
      ¬(tokenAt m_tokens c).is .Punctuation value = true := by
    intro is
    unfold Token.is at is
    rw [Bool.and_eq_true, beq_iff_eq, beq_iff_eq] at is
    exact punctuation is.1 (is.2 ▸ opening)
  unfold parse_primary
  simp only [Parser.bind_apply, peek_apply, done_andThen, Parser.ite_apply]
  rw [if_neg (noOpening (by decide)), if_neg (noOpening (by decide)),
    if_neg noString, if_neg noName, if_neg noNumber,
    if_neg (noOpening (by decide))]
  rfl

theorem Token.not_is_of_idle (idle : token.isIdle = true)
    (value : String) : ¬token.is .Identifier value = true :=
  fun is => (Token.idle_cases idle).2.1 (Token.type_of_is is)

theorem Token.not_operator_of_idle (idle : token.isIdle = true)
    (listed : value ∈ ["+", "-", "~", "|", "==", "!=", "<", ">", "<=", ">="]) :
    ¬token.is .Operator value = true := by
  intro is
  unfold Token.is at is
  rw [Bool.and_eq_true, beq_iff_eq, beq_iff_eq] at is
  exact (Token.idle_cases idle).2.2.2.2 is.1 (is.2 ▸ listed)

theorem parse_unary_stays (idle : (tokenAt m_tokens c).isIdle = true)
    (stays : Stays (primary m_tokens c) c) (fuel : Nat) :
    Stays (parse_unary primary fuel m_tokens c) c := by
  cases fuel with
  | zero => trivial
  | succ fuel =>
    unfold parse_unary
    simp only [Parser.bind_apply, peek_apply, done_andThen, Parser.ite_apply]
    rw [if_neg]
    · exact stays
    · rw [Bool.or_eq_true]
      rintro (is | is)
      · exact Token.not_operator_of_idle idle (by decide) is
      · exact Token.not_operator_of_idle idle (by decide) is

theorem filterLoop_stays (idle : (tokenAt m_tokens c).isIdle = true) (argsFuel fuel : Nat)
    (left : Expr) :
    Stays (filterLoop parse_expression argsFuel fuel left m_tokens c) c := by
  cases fuel with
  | zero => trivial
  | succ fuel =>
    unfold filterLoop
    rw [Parser.bind_apply, eat_of_not_is (Token.not_operator_of_idle idle (by decide)),
      done_andThen, if_neg Bool.false_ne_true]
    rfl

theorem binaryLoop_stays (noOperator : ¬isOperator (tokenAt m_tokens c) = true) (fuel : Nat)
    (left : Expr) :
    Stays (binaryLoop isOperator operand fuel left m_tokens c) c := by
  cases fuel with
  | zero => trivial
  | succ fuel =>
    unfold binaryLoop
    simp only [Parser.bind_apply, peek_apply, done_andThen, Parser.ite_apply]
    rw [if_neg noOperator]
    rfl

theorem not_isCompare_of_idle (idle : token.isIdle = true) :
    ¬isCompare token = true := by
  obtain ⟨-, noName, -, -, operator⟩ := Token.idle_cases idle
  intro is
  unfold isCompare at is
  simp only [Bool.or_eq_true, Bool.and_eq_true, beq_iff_eq,
    List.contains_eq_mem, decide_eq_true_eq] at is
  rcases is with ⟨isOperator, listed⟩ | ⟨isName, -⟩
  · refine operator isOperator ?_
    simp only [List.mem_cons, List.not_mem_nil, or_false] at listed ⊢
    grind
  · exact noName isName

section

variable (idle : (tokenAt m_tokens c).isIdle = true)

include idle

theorem compareLoop_stays (fuel : Nat) (left : Expr) :
    Stays (compareLoop operand fuel left m_tokens c) c := by
  cases fuel with
  | zero => trivial
  | succ fuel =>
    unfold compareLoop
    simp only [Parser.bind_apply, peek_apply, done_andThen, Parser.ite_apply]
    rw [if_neg (not_isCompare_of_idle idle)]
    rfl

theorem parse_not_stays (stays : Stays (operand m_tokens c) c) (fuel : Nat) :
    Stays (parse_not operand fuel m_tokens c) c := by
  cases fuel with
  | zero => trivial
  | succ fuel =>
    unfold parse_not
    simp only [Parser.bind_apply, peek_apply, done_andThen, Parser.ite_apply]
    rw [if_neg (Token.not_is_of_idle idle "not")]
    exact stays

/-- From `parse_primary` up to `parse_or` no function takes the token. -/
theorem orFrom_stays (fuel : Nat) :
    Stays (orFrom watched parse_expression fuel m_tokens c) c := by
  have noSign : ¬((tokenAt m_tokens c).is .Operator "+" || (tokenAt m_tokens c).is .Operator "-" ||
          (tokenAt m_tokens c).is .Operator "~") = true := by
    rw [Bool.or_eq_true, Bool.or_eq_true]
    rintro ((is | is) | is)
    · exact Token.not_operator_of_idle idle (by decide) is
    · exact Token.not_operator_of_idle idle (by decide) is
    · exact Token.not_operator_of_idle idle (by decide) is
  unfold orFrom parse_or parse_and
  refine Stays.andThen ?_ fun left => ?_
  · refine Stays.andThen ?_ fun left => ?_
    · refine parse_not_stays idle ?_ fuel
      refine Stays.andThen ?_ fun left => compareLoop_stays idle fuel left
      refine Stays.andThen ?_ fun left => binaryLoop_stays noSign fuel left
      refine Stays.andThen ?_ fun left =>
        filterLoop_stays idle fuel fuel left
      exact parse_unary_stays idle (parse_primary_stays idle fuel) fuel
    · exact binaryLoop_stays (Token.not_is_of_idle idle "and") fuel left
  · exact binaryLoop_stays (Token.not_is_of_idle idle "or") fuel left

end

end Idle

theorem parse_expression_stays
    {watched : Bool} {c : Nat} (idle : (tokenAt m_tokens c).isIdle = true)
    (fuel : Nat) (allow_ternary : Bool) :
    Stays (parse_expression watched fuel allow_ternary m_tokens c) c := by
  cases fuel with
  | zero => trivial
  | succ fuel =>
    unfold parse_expression expressionFrom
    rw [Parser.bind_apply]
    refine (orFrom_stays idle fuel).andThen fun expr => ?_
    rw [Parser.bind_apply, peek_apply, done_andThen, if_neg]
    · rfl
    · rintro ⟨-, is⟩
      exact Token.not_is_of_idle idle "if" is

section Blocked

variable {parse_expression : Bool → P Expr} {c : Nat}

theorem itemsLoop_outOfFuel {A : Type} {item : P A}
    (isOpen : ¬(tokenAt m_tokens c).is .Punctuation closing = true)
    (stays : Stays (item m_tokens c) c) (fuel : Nat) (items : List A) :
    itemsLoop false closing blocks item fuel items m_tokens c = .outOfFuel := by
  induction fuel generalizing items with
  | zero => rfl
  | succ fuel ih =>
    unfold itemsLoop
    simp only [Parser.bind_apply, peek_apply, done_andThen, Parser.ite_apply]
    rw [if_neg isOpen, if_neg (fun both => Bool.false_ne_true both.1)]
    exact Stays.outOfFuel_of_andThen stays fun next => ih (items ++ [next])

/-- An expression takes nothing at an idle token. -/
def StaysIdle (parse_expression : Bool → P Expr) : Prop :=
  ∀ m_tokens c, (tokenAt m_tokens c).isIdle = true →
    ∀ allow_ternary, Stays (parse_expression allow_ternary m_tokens c) c

theorem eat_stays {type : TokenType} (isNot : (!(tokenAt m_tokens c).is type value) = true) :
    Stays (eat type value m_tokens c) c := by
  rw [eat_of_not_is (by rw [Bool.not_eq_true'] at isNot; exact Bool.eq_false_iff.mp isNot)]
  rfl

theorem listItem_stays (stays : StaysIdle parse_expression)
    (blocks : (tokenAt m_tokens c).blocksList = true) :
    Stays (listItem parse_expression m_tokens c) c := by
  rw [Token.blocksList, Bool.and_eq_true] at blocks
  exact (stays m_tokens c blocks.1 true).andThen fun _ => (eat_stays blocks.2).andThen fun _ => rfl

theorem dictItem_stays (stays : StaysIdle parse_expression)
    (blocks : (tokenAt m_tokens c).blocksDict = true) :
    Stays (dictItem parse_expression m_tokens c) c := by
  rw [Token.blocksDict, Bool.and_eq_true, Bool.and_eq_true] at blocks
  have expression := stays m_tokens c blocks.1.1 true
  exact expression.andThen fun _ => (eat_stays blocks.2).andThen fun _ =>
    expression.andThen fun _ => (eat_stays blocks.1.2).andThen fun _ => rfl

end Blocked

/-!
# Termination of the Jinja parser

A run with more fuel agrees with a run that has enough.  A run that is not
watched agrees with one that is watched, except that it has no fuel left where
that one is blocked.
-/

/-! ## Expressions -/

def ExpressionsAgree (parse_expression parse_expression' : Bool → P Expr) :
    Prop :=
  ∀ allow_ternary, Parser.Agrees (parse_expression allow_ternary) (parse_expression' allow_ternary)

section Expressions

variable {watched watched' : Bool} {parse_expression parse_expression' : Bool → P Expr}
  {fuel fuel' argsFuel argsFuel' : Nat}

theorem binaryLoop_agrees (operands : operand.Agrees operand') (le : fuel ≤ fuel') (left : Expr) :
    Parser.Agrees (binaryLoop isOperator operand fuel left)
      (binaryLoop isOperator operand' fuel' left) := by
  induction le using fuel_induction generalizing left with
  | zero fuel' => exact .outOfFuel _
  | succ fuel fuel' le ih =>
    unfold binaryLoop
    refine .behind _ fun token => .ite ?_ (.refl _)
    refine .behind _ fun op => ?_
    exact .bind operands fun right => ih _

theorem operands_agree (isOperator : Token → Bool)
    (operands : operand.Agrees operand') (le : fuel ≤ fuel') :
    Parser.Agrees (operand >>= binaryLoop isOperator operand fuel)
      (operand' >>= binaryLoop isOperator operand' fuel') :=
  .bind operands fun left => binaryLoop_agrees operands le left

section

variable {A : Type} {argument argument' : P A} (arguments : argument.Agrees argument')
  (le : fuel ≤ fuel')

include arguments le

theorem argsLoop_agrees (args : List A) :
    Parser.Agrees (argsLoop argument fuel args) (argsLoop argument' fuel' args) := by
  induction le using fuel_induction generalizing args with
  | zero fuel' => exact .outOfFuel _
  | succ fuel fuel' le ih =>
    unfold argsLoop
    refine .behind _ fun token => .ite (.refl _) ?_
    refine .bind arguments fun arg => ?_
    exact .behind _ fun more => .ite (ih _) (.refl _)

theorem parse_args_agrees :
    Parser.Agrees (parse_args argument fuel) (parse_args argument' fuel') :=
  .bind (argsLoop_agrees arguments le []) fun _ => .refl _

end

/-- Where only the watched run is blocked the other one has no fuel left. -/
theorem itemsLoop_agrees {A : Type} {item item' : P A}
    (watches : watched' = true → watched = true) (agrees : item.Agrees item')
    (stays : ∀ m_tokens c, blocks (tokenAt m_tokens c) = true → Stays (item' m_tokens c) c)
    (le : fuel ≤ fuel') (items : List A) :
    Parser.Agrees (itemsLoop watched closing blocks item fuel items)
      (itemsLoop watched' closing blocks item' fuel' items) := by
  induction le using fuel_induction generalizing items with
  | zero fuel' => exact .outOfFuel _
  | succ fuel fuel' le ih =>
    intro m_tokens c
    unfold itemsLoop
    simp only [Parser.bind_apply, peek_apply, done_andThen, Parser.ite_apply]
    by_cases closed : (tokenAt m_tokens c).is .Punctuation closing = true
    · rw [if_pos closed, if_pos closed]
      exact Agrees.refl _
    · rw [if_neg closed, if_neg closed]
      refine Agrees.blocked watches ?_ ?_
      · intro isBlocked notWatched
        rw [Bool.not_eq_true] at notWatched
        have stays := stays m_tokens c isBlocked
        rw [notWatched]
        exact Stays.outOfFuel_of_andThen stays fun next =>
          itemsLoop_outOfFuel closed stays fuel' (items ++ [next])
      · exact Agrees.andThen (agrees m_tokens c) fun next c' => ih (items ++ [next]) m_tokens c'

section

variable (expressions : ExpressionsAgree parse_expression parse_expression')

include expressions

theorem parse_argument_agrees :
    Parser.Agrees (parse_argument parse_expression) (parse_argument parse_expression') :=
  .behind _ fun _ => .bind (expressions true) fun _ => .refl _

theorem parse_bound_agrees (stops : Token → Bool) :
    Parser.Agrees (parse_bound parse_expression stops) (parse_bound parse_expression' stops) :=
  .behind _ fun _ => .ite (.refl _) (.bind (expressions true) fun _ => .refl _)

theorem parse_index_agrees :
    Parser.Agrees (parse_index parse_expression) (parse_index parse_expression') := by
  have bounds := parse_bound_agrees expressions
  unfold parse_index
  refine .bind (bounds _) fun start => ?_
  refine .behind _ fun is_slice => .ite ?_ (.refl _)
  refine .bind (bounds _) fun stop => ?_
  refine .behind _ fun second => .ite ?_ (.refl _)
  exact .bind (bounds _) fun step => .refl _

theorem accessLoop_agrees (leArgs : argsFuel ≤ argsFuel') (le : fuel ≤ fuel') (expr : Expr) :
    Parser.Agrees (accessLoop parse_expression argsFuel fuel expr)
      (accessLoop parse_expression' argsFuel' fuel' expr) := by
  induction le using fuel_induction generalizing expr with
  | zero fuel' => exact .outOfFuel _
  | succ fuel fuel' le ih =>
    unfold accessLoop
    refine .behind _ fun bracket => .ite ?_ ?_
    · exact .bind (parse_index_agrees expressions) fun index => ih _
    · refine .behind _ fun dot => .ite ?_ (.refl _)
      refine .behind _ fun token => .ite ?_ (ih _)
      refine .behind _ fun member => ?_
      refine .behind _ fun call => .ite ?_ (ih _)
      refine .bind (parse_args_agrees (expressions true) leArgs) fun args => ?_
      exact ih _

theorem parse_name_agrees (le : fuel ≤ fuel') :
    Parser.Agrees (parse_name parse_expression fuel) (parse_name parse_expression' fuel') := by
  have arguments := parse_argument_agrees expressions
  unfold parse_name
  refine .behind _ fun name => .ite (.refl _) ?_
  refine .ite (.refl _) (.ite (.refl _) ?_)
  refine .behind _ fun call => .ite ?_ ?_
  · refine .bind (parse_args_agrees arguments le) fun args => ?_
    exact accessLoop_agrees expressions le le _
  · exact accessLoop_agrees expressions le le _

end

theorem parse_primary_agrees (watches : watched' = true → watched = true)
    (expressions : ExpressionsAgree parse_expression parse_expression')
    (stays : StaysIdle parse_expression') (le : fuel ≤ fuel') :
    Parser.Agrees (parse_primary watched parse_expression fuel)
      (parse_primary watched' parse_expression' fuel') := by
  simp only [parse_primary, listLoop_eq, dictLoop_eq]
  refine .behind _ fun token => .ite ?_ (.ite ?_ ?_)
  · have items : Parser.Agrees (listItem parse_expression) (listItem parse_expression') :=
      .bind (expressions true) fun _ => .refl _
    exact .behind _ fun _ => .bind (itemsLoop_agrees watches items
      (fun _ _ => listItem_stays stays) le []) fun _ => .refl _
  · have items : Parser.Agrees (dictItem parse_expression) (dictItem parse_expression') :=
      .bind (expressions true) fun _ => .behind _ fun _ =>
        .bind (expressions true) fun _ => .refl _
    exact .behind _ fun _ => .bind (itemsLoop_agrees watches items
      (fun _ _ => dictItem_stays stays) le []) fun _ => .refl _
  · refine .ite (.refl _) (.ite (parse_name_agrees expressions le) ?_)
    refine .ite (.refl _) (.ite ?_ (.refl _))
    exact .behind _ fun _ => .bind (expressions true) fun _ => .refl _

theorem parse_unary_agrees {primary' : P Expr} (primaries : primary.Agrees primary')
    (le : fuel ≤ fuel') :
    Parser.Agrees (parse_unary primary fuel) (parse_unary primary' fuel') := by
  induction le using fuel_induction with
  | zero fuel' => exact .outOfFuel _
  | succ fuel fuel' le ih =>
    unfold parse_unary
    refine .behind _ fun token => .ite ?_ primaries
    exact .behind _ fun op => .bind ih fun _ => .refl _

theorem filterLoop_agrees (expressions : ExpressionsAgree parse_expression parse_expression')
    (leArgs : argsFuel ≤ argsFuel') (le : fuel ≤ fuel') (left : Expr) :
    Parser.Agrees (filterLoop parse_expression argsFuel fuel left)
      (filterLoop parse_expression' argsFuel' fuel' left) := by
  have arguments := parse_argument_agrees expressions
  induction le using fuel_induction generalizing left with
  | zero fuel' => exact .outOfFuel _
  | succ fuel fuel' le ih =>
    unfold filterLoop
    refine .behind _ fun bar => .ite ?_ (.refl _)
    refine .behind _ fun token => .ite ?_ (ih _)
    refine .behind _ fun name => ?_
    refine .behind _ fun call => .ite ?_ (ih _)
    exact .bind (parse_args_agrees arguments leArgs) fun _ => ih _

section

variable {operand operand' : P Expr} (operands : operand.Agrees operand') (le : fuel ≤ fuel')

include operands le

theorem compareLoop_agrees (left : Expr) :
    Parser.Agrees (compareLoop operand fuel left) (compareLoop operand' fuel' left) := by
  induction le using fuel_induction generalizing left with
  | zero fuel' => exact .outOfFuel _
  | succ fuel fuel' le ih =>
    unfold compareLoop
    refine .behind _ fun token => .ite ?_ (.refl _)
    refine .behind _ fun op => .ite ?_ (.ite ?_ ?_)
    · exact .behind _ fun _ => .behind _ fun _ => ih _
    · refine .behind _ fun isIn => .ite ?_ (.refl _)
      exact .bind operands fun _ => ih _
    · exact .bind operands fun _ => ih _

theorem parse_not_agrees :
    Parser.Agrees (parse_not operand fuel) (parse_not operand' fuel') := by
  induction le using fuel_induction with
  | zero fuel' => exact .outOfFuel _
  | succ fuel fuel' le ih =>
    unfold parse_not
    refine .behind _ fun token => .ite ?_ operands
    exact .behind _ fun _ => .bind ih fun _ => .refl _

end

theorem orFrom_agrees (watches : watched' = true → watched = true)
    (expressions : ExpressionsAgree parse_expression parse_expression')
    (stays : StaysIdle parse_expression') (le : fuel ≤ fuel') :
    Parser.Agrees (orFrom watched parse_expression fuel)
      (orFrom watched' parse_expression' fuel') := by
  have primaries := parse_primary_agrees watches expressions stays le
  have filters := Parser.Agrees.bind (parse_unary_agrees primaries le) fun left =>
      filterLoop_agrees expressions le le left
  have adds := operands_agree (fun token =>
        token.is .Operator "+" || token.is .Operator "-" || token.is .Operator "~")
      filters le
  have compares := Parser.Agrees.bind adds fun left => compareLoop_agrees adds le left
  have nots := parse_not_agrees compares le
  have ands := operands_agree (fun token => token.is .Identifier "and") nots le
  exact operands_agree (fun token => token.is .Identifier "or") ands le

theorem expressionFrom_agrees {parse_or parse_or' : P Expr} (operands : parse_or.Agrees parse_or')
    (expressions : ExpressionsAgree parse_expression parse_expression') (allow_ternary : Bool) :
    Parser.Agrees (expressionFrom parse_expression parse_or allow_ternary)
      (expressionFrom parse_expression' parse_or' allow_ternary) := by
  unfold expressionFrom
  refine .bind operands fun expr => ?_
  refine .behind _ fun token => .ite ?_ (.refl _)
  refine .behind _ fun _ => .bind operands fun cond => ?_
  refine .behind _ fun hasElse => .ite ?_ (.refl _)
  exact .bind (expressions true) fun _ => .refl _

end Expressions

theorem parse_expression_agrees
    {watched watched' : Bool} (watches : watched' = true → watched = true)
    {fuel fuel' : Nat} (le : fuel ≤ fuel') :
    ExpressionsAgree (parse_expression watched fuel) (parse_expression watched' fuel') := by
  induction le using fuel_induction with
  | zero fuel' => exact fun _ => .outOfFuel _
  | succ fuel fuel' le ih =>
    intro allow_ternary
    have stays : StaysIdle (parse_expression watched' fuel') :=
      fun _ _ idle allow_ternary =>
        parse_expression_stays idle fuel' allow_ternary
    exact expressionFrom_agrees (orFrom_agrees watches ih stays le) ih allow_ternary

/-! ## Statements -/

section Statements

variable {parse_expression parse_expression' : Bool → P Expr}
  {parse_block parse_block' : P Node} {fuel fuel' : Nat}

theorem parse_item_agrees (expressions : ExpressionsAgree parse_expression parse_expression')
    (blocks : parse_block.Agrees parse_block') :
    Parser.Agrees (parse_item parse_expression parse_block)
      (parse_item parse_expression' parse_block') := by
  have prints : Parser.Agrees (parse_print parse_expression) (parse_print parse_expression') :=
    .behind _ fun _ => .bind (expressions true) fun _ => .refl _
  unfold parse_item
  refine .behind _ fun token => .ite (.refl _) (.ite ?_ (.ite ?_ (.refl _)))
  · exact .bind prints fun _ => .refl _
  · exact .bind blocks fun _ => .refl _

theorem bodyLoop_agrees (isEnd : Token → Option Token × Bool → Bool)
    (expressions : ExpressionsAgree parse_expression parse_expression')
    (blocks : parse_block.Agrees parse_block') (le : fuel ≤ fuel') (body : List Node) :
    Parser.Agrees (bodyLoop parse_expression parse_block isEnd fuel body)
      (bodyLoop parse_expression' parse_block' isEnd fuel' body) := by
  induction le using fuel_induction generalizing body with
  | zero fuel' => exact .outOfFuel _
  | succ fuel fuel' le ih =>
    unfold bodyLoop
    refine .behind _ fun token => .behind _ fun next => ?_
    refine .ite (.refl _) (.ite (.refl _) ?_)
    exact .bind (parse_item_agrees expressions blocks) fun _ => ih _

theorem varsLoop_agrees (le : fuel ≤ fuel') (vars : List String) :
    Parser.Agrees (varsLoop fuel vars) (varsLoop fuel' vars) := by
  induction le using fuel_induction generalizing vars with
  | zero fuel' => exact .outOfFuel _
  | succ fuel fuel' le ih =>
    unfold varsLoop
    refine .behind _ fun token => .ite ?_ (.refl _)
    refine .behind _ fun name => .behind _ fun more => ?_
    exact .ite (ih _) (.refl _)

section

variable (expressions : ExpressionsAgree parse_expression parse_expression')

include expressions

theorem parse_for_agrees (blocks : parse_block.Agrees parse_block') (le : fuel ≤ fuel') :
    Parser.Agrees (parse_for parse_expression parse_block fuel)
      (parse_for parse_expression' parse_block' fuel') := by
  have conditions : Parser.Agrees (parse_condition parse_expression)
        (parse_condition parse_expression') :=
    .behind _ fun _ =>
      .ite (.bind (expressions true) fun _ => .refl _) (.refl _)
  unfold parse_for
  refine .bind (varsLoop_agrees le []) fun vars => .behind _ fun _ => ?_
  refine .bind (expressions false) fun iterable => ?_
  refine .bind conditions fun filter_expr => .behind _ fun _ => ?_
  exact .bind (bodyLoop_agrees _ expressions blocks le []) fun _ => .refl _

theorem ifLoop_agrees (blocks : parse_block.Agrees parse_block') (le : fuel ≤ fuel')
    (condition : Expr) (true_body false_body : List Node) (isElse : Bool) :
    Parser.Agrees (ifLoop parse_expression parse_block fuel condition true_body false_body isElse)
      (ifLoop parse_expression' parse_block' fuel' condition true_body false_body isElse) := by
  induction le using fuel_induction generalizing condition true_body false_body isElse with
  | zero fuel' => exact .outOfFuel _
  | succ fuel fuel' le ih =>
    unfold ifLoop
    refine .behind _ fun token => .behind _ fun next => ?_
    refine .ite (.refl _) (.ite (.refl _) (.ite ?_ (.ite ?_ ?_)))
    · exact .behind _ fun _ => ih _ _ _ _
    · refine .behind _ fun _ => .behind _ fun _ => ?_
      refine .bind (expressions true) fun elif_cond => .behind _ fun _ => ?_
      exact .bind (ih _ _ _ _) fun _ => .refl _
    · refine .bind (parse_item_agrees expressions blocks) fun item => ?_
      exact .ite (ih _ _ _ _) (ih _ _ _ _)

theorem parse_set_agrees :
    Parser.Agrees (parse_set parse_expression) (parse_set parse_expression') :=
  .bind (expressions true) fun _ => .behind _ fun _ =>
    .bind (expressions true) fun _ => .refl _

theorem parse_parameter_agrees :
    Parser.Agrees (parse_parameter parse_expression) (parse_parameter parse_expression') := by
  have defaults : Parser.Agrees (parse_default parse_expression)
        (parse_default parse_expression') :=
    .behind _ fun _ =>
      .ite (.bind (expressions true) fun _ => .refl _) (.refl _)
  refine .behind _ fun token => .ite ?_ (.refl _)
  exact .behind _ fun name => .bind defaults fun _ => .refl _

theorem parse_macro_agrees (blocks : parse_block.Agrees parse_block') (le : fuel ≤ fuel') :
    Parser.Agrees ( parse_macro parse_expression parse_block fuel)
      ( parse_macro parse_expression' parse_block' fuel') := by
  have bodies := bodyLoop_agrees isEndmacro expressions blocks le []
  have parameters := parse_parameter_agrees expressions
  unfold parse_macro
  refine .behind _ fun name => .behind _ fun call => .ite ?_ ?_
  · refine .bind (parse_args_agrees parameters le) fun args => ?_
    exact .behind _ fun _ => .bind bodies fun _ => .refl _
  · exact .behind _ fun _ => .behind _ fun _ => .bind bodies fun _ => .refl _

end

theorem skipBlock_agrees (le : fuel ≤ fuel') :
    Parser.Agrees (skipBlock fuel) (skipBlock fuel') := by
  induction le using fuel_induction with
  | zero fuel' => exact .outOfFuel _
  | succ fuel fuel' le ih =>
    unfold skipBlock
    refine .behind _ fun token => .ite (.refl _) (.ite (.refl _) ?_)
    exact .behind _ fun _ => ih

theorem blockFrom_agrees (expressions : ExpressionsAgree parse_expression parse_expression')
    (blocks : parse_block.Agrees parse_block') (le : fuel ≤ fuel') :
    Parser.Agrees (blockFrom parse_expression parse_block fuel)
      (blockFrom parse_expression' parse_block' fuel') := by
  unfold blockFrom
  refine .behind _ fun _ => .behind _ fun cmd => .ite ?_ (.ite ?_ (.ite ?_ ?_))
  · exact parse_for_agrees expressions blocks le
  · refine .bind (expressions true) fun condition => .behind _ fun _ => ?_
    exact ifLoop_agrees expressions blocks le condition [] [] false
  · exact parse_set_agrees expressions
  · refine .ite (parse_macro_agrees expressions blocks le) ?_
    exact .bind (skipBlock_agrees le) fun _ => .refl _

end Statements

section Runs

variable {watched watched' : Bool} {fuel fuel' : Nat}

theorem parse_block_agrees (watches : watched' = true → watched = true) (le : fuel ≤ fuel') :
    Parser.Agrees (parse_block watched fuel) (parse_block watched' fuel') := by
  induction le using fuel_induction with
  | zero fuel' => exact .outOfFuel _
  | succ fuel fuel' le ih =>
    exact blockFrom_agrees (parse_expression_agrees watches le) ih le

/-- A run agrees with one that is not watched more, and has no less fuel. -/
theorem parseWith_agrees (watches : watched' = true → watched = true) (le : fuel ≤ fuel') :
    Parser.Agrees (parseWith watched fuel) (parseWith watched' fuel') :=
  bodyLoop_agrees _ (parse_expression_agrees watches le) (parse_block_agrees watches le) le []

end Runs

/-! ## Templates -/

/-- `tokenize` and `parse` come to an end. -/
def Terminates (template : List Char) : Prop :=
  ∃ tokens, Lexer.tokenize template = some tokens ∧
    ∃ fuel nodes m_cursor, parse fuel tokens = .done nodes m_cursor

/-- No loop over items comes to a token that it does not take. -/
def NeverBlocked (m_tokens : List Token) : Prop := ∀ fuel, parseWith true fuel m_tokens 0 ≠ .blocked

/-- What is done is not blocked, whatever the fuel of the watched run is. -/
theorem neverBlocked_of_done
    {m_tokens : List Token} {fuel : Nat} {nodes : List Node} {m_cursor : Nat}
    (isDone : parse fuel m_tokens = .done nodes m_cursor) :
    NeverBlocked m_tokens := by
  intro fuel' isBlocked
  have unwatched : Agrees (parseWith false fuel m_tokens 0)
        (parseWith false (max fuel fuel') m_tokens 0) :=
    parseWith_agrees id (Nat.le_max_left ..) m_tokens 0
  have watched : Agrees (parseWith true fuel' m_tokens 0)
        (parseWith false (max fuel fuel') m_tokens 0) :=
    parseWith_agrees (fun _ => rfl) (Nat.le_max_right ..) m_tokens 0
  unfold parse at isDone
  rw [isDone] at unwatched
  rw [isBlocked] at watched
  rcases unwatched with isOut | same | ⟨isBlocked, -⟩
  · nomatch isOut
  · rw [← same] at watched
    rcases watched with isOut | same | ⟨-, isOut⟩
    · nomatch isOut
    · nomatch same
    · nomatch isOut
  · nomatch isBlocked

theorem done_of_neverBlocked {m_tokens : List Token} (neverBlocked : NeverBlocked m_tokens) :
    ∃ fuel nodes m_cursor, parse fuel m_tokens = .done nodes m_cursor := by
  obtain ⟨fuel, notOut⟩ := parseWith_ends m_tokens 0
  have agrees : Agrees (parseWith true fuel m_tokens 0) (parseWith false fuel m_tokens 0) :=
    parseWith_agrees (fun _ => rfl) (Nat.le_refl fuel) m_tokens 0
  have same : parseWith true fuel m_tokens 0 = parse fuel m_tokens := by
    rcases agrees with isOut | same | ⟨isBlocked, -⟩
    · exact absurd isOut notOut
    · exact same
    · exact absurd isBlocked (neverBlocked fuel)
  cases outcome : parse fuel m_tokens with
  | outOfFuel => exact absurd (same.trans outcome) notOut
  | blocked => exact absurd (same.trans outcome) (neverBlocked fuel)
  | done nodes m_cursor => exact ⟨fuel, nodes, m_cursor, outcome⟩

/--
A template is parsed to its end exactly if the loops over the items of lists
and dictionaries never come to a token that they do not take.
-/
theorem terminates_iff (template : List Char) :
    Terminates template ↔ ∀ tokens, Lexer.tokenize template = some tokens →
        NeverBlocked tokens := by
  constructor
  · rintro ⟨tokens, isTokens, fuel, nodes, m_cursor, isDone⟩ tokens' isTokens'
    obtain rfl : tokens = tokens' := Option.some.inj (isTokens.symm.trans isTokens')
    exact neverBlocked_of_done isDone
  · intro neverBlocked
    obtain ⟨tokens, isTokens⟩ := Lexer.tokenize_isSome template
    exact ⟨tokens, isTokens, done_of_neverBlocked (neverBlocked tokens isTokens)⟩

/-- The list of this template is not closed. -/
theorem not_terminates : ¬∀ template, Terminates template := by
  intro always
  obtain ⟨tokens, isTokens, fuel, nodes, m_cursor, isDone⟩ := always "\x7b\x7b [".toList
  have areTokens : tokens = [⟨.ExpressionStart, "\x7b\x7b"⟩, ⟨.Punctuation, "["⟩, Token.eof] := by
    rw [show Lexer.tokenize "\x7b\x7b [".toList = _ from rfl] at isTokens
    exact (Option.some.inj isTokens).symm
  have isBlocked : parseWith true 30 tokens 0 = .blocked := by
    rw [areTokens]
    rfl
  exact neverBlocked_of_done isDone 30 isBlocked

end Mnn.Llm.Jinja
