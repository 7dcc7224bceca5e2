import Mnn.Llm.JinjaParser

/-!
# Progress of the Jinja parser

Each function of the parser ends with enough fuel, and takes a token unless the
token begins no expression.  The loops over lists and dictionaries are watched
for that.
-/

variable {α β A : Type} {c c' : Nat} {starts : Token → Bool}

namespace Mnn.Llm.Jinja

open Mnn.Foundation.FuelParser Parser
open List
open Nat

variable {m_tokens : List Token}

variable {c fuel start : Nat} {type : TokenType} {value : String}

/-! ## Tokens -/

theorem lt_of_type_ne (notEof : (tokenAt m_tokens c).type ≠ .Eof) : c < m_tokens.length := by
  by_contra behind
  have isEof : tokenAt m_tokens c = Token.eof := by
    rw [tokenAt, getD_eq_getElem?_getD, List.getElem?_eq_none (Nat.le_of_not_lt behind)]
    rfl
  rw [isEof] at notEof
  exact notEof rfl

variable {token : Token}

theorem Token.type_of_is (is : token.is type value = true) : token.type = type := by
  unfold Token.is at is
  rw [Bool.and_eq_true, beq_iff_eq] at is
  exact is.1

theorem is_ne_eof (type : TokenType) (given : type ≠ .Eof) (value : String)
    (token : Token) (is : token.is type value = true) : token.type ≠ .Eof := by
  rw [Token.type_of_is is]
  exact given

@[simp]
theorem peek_apply (c : Nat) : peek m_tokens c = .done (tokenAt m_tokens c) c :=
  rfl

@[simp]
theorem peekNext_apply (c : Nat) :
    peekNext m_tokens c = .done (m_tokens[c + 1]?, decide (c + 2 < m_tokens.length)) c :=
  rfl

@[simp]
theorem done_andThen (value : α) (c : Nat) (next : α → Nat → Outcome β) :
    (Outcome.done value c).andThen next = next value c :=
  rfl

theorem advance_apply (notEof : (tokenAt m_tokens c).type ≠ .Eof) :
    advance m_tokens c = .done (tokenAt m_tokens c) (c + 1) := by
  unfold advance
  rw [if_neg notEof]
  rfl

theorem advance_ends (c : Nat) : Ends (advance m_tokens c) fun _ c' => c ≤ c' := by
  by_cases isEof : (tokenAt m_tokens c).type = .Eof
  · unfold advance
    rw [if_pos isEof]
    exact Nat.le_refl c
  · rw [advance_apply isEof]
    exact le_succ c

theorem eat_of_is {type : TokenType} {value : String} (given : type ≠ .Eof)
    (is : (tokenAt m_tokens c).is type value = true) :
    eat type value m_tokens c = .done true (c + 1) := by
  have isType := Token.type_of_is is
  simp only [eat, Parser.bind_apply, peek_apply, done_andThen,
    Parser.ite_apply, if_pos is, advance_apply (isType ▸ given),
    Parser.pure_apply]

theorem eat_of_not_is {type : TokenType} {value : String}
    (isNot : ¬(tokenAt m_tokens c).is type value = true) :
    eat type value m_tokens c = .done false c := by
  simp only [eat, Parser.bind_apply, peek_apply, done_andThen,
    Parser.ite_apply, if_neg isNot, Parser.pure_apply]

theorem eat_ends (c : Nat) (given : type ≠ .Eof) : Ends (eat type value m_tokens c) fun taken c' =>
      if taken = true then
        (tokenAt m_tokens c).is type value = true ∧ c' = c + 1
      else
        ¬(tokenAt m_tokens c).is type value = true ∧ c' = c := by
  by_cases is : (tokenAt m_tokens c).is type value = true
  · rw [eat_of_is given is]
    exact ⟨is, rfl⟩
  · rw [eat_of_not_is is]
    exact ⟨is, rfl⟩

theorem eat_forward (c : Nat) (given : type ≠ .Eof) :
    Ends (eat type value m_tokens c) fun _ c' => c ≤ c' := by
  refine (eat_ends c given).imp ?_
  intro taken c' told
  split at told
  · rw [told.2]
    exact le_succ c
  · exact Nat.le_of_eq told.2.symm

theorem eatType_ends (c : Nat) : Ends (eatType type m_tokens c) fun _ c' => c ≤ c' := by
  unfold eatType
  simp only [Parser.bind_apply, peek_apply, done_andThen, Parser.ite_apply]
  split
  · refine (advance_ends c).andThen ?_
    exact fun _ c' forward => forward
  · exact Nat.le_refl c

theorem forward_peek : Forward m_tokens start peek := fun c _ => Nat.le_refl c

theorem forward_advance : Forward m_tokens start advance := fun c _ => advance_ends c

theorem forward_eat (given : type ≠ .Eof) : Forward m_tokens start (eat type value) :=
  fun c _ => eat_forward c given

theorem forward_eatType : Forward m_tokens start (eatType type) := fun c _ => eatType_ends c

/-- What closes an expression is taken if it is there. -/
theorem forward_close (result : α) (given : type ≠ .Eof) :
    Forward m_tokens start (eat type value >>= fun _ => pure result) :=
  .bind (forward_eat given) fun _ => .pure _

/-! ## Loops -/

/-- The parser ends, and takes a token if there is one of these. -/
def Advances {α : Type} (starts : Token → Bool) (parser : P α)
    (m_tokens : List Token) (c : Nat) : Prop :=
  Ends (parser m_tokens c) fun _ c' =>
    c ≤ c' ∧ (starts (tokenAt m_tokens c) = true → c < c')

theorem Advances.forward {parser : P α} (advances : Advances starts parser m_tokens c) :
    Ends (parser m_tokens c) fun _ c' => c ≤ c' :=
  advances.imp fun _ _ told => told.1

/-- The tokens that begin an expression. -/
def Token.begins (token : Token) : Bool := !token.isIdle

/-- Expressions behind a place. -/
def AdvancesBehind (parse_expression : Bool → P Expr) (m_tokens : List Token) (c : Nat) : Prop :=
  ∀ allow_ternary, ∀ c' > c, Advances Token.begins (parse_expression allow_ternary) m_tokens c'

theorem AdvancesBehind.mono {parse_expression : Bool → P Expr}
    (behind : AdvancesBehind parse_expression m_tokens c) (le : c ≤ c') :
    AdvancesBehind parse_expression m_tokens c' :=
  fun allow_ternary c'' less =>
    behind allow_ternary c'' (Nat.lt_of_le_of_lt le less)

theorem AdvancesBehind.forward {parse_expression : Bool → P Expr}
    (behind : AdvancesBehind parse_expression m_tokens start) (isBehind : start < c)
    (allow_ternary : Bool) : Forward m_tokens c (parse_expression allow_ternary) :=
  fun c' le => (behind allow_ternary c' (Nat.lt_of_lt_of_le isBehind le)).forward

theorem binaryLoop_ends (isOperator : Token → Bool)
    (noEof : ∀ token, isOperator token = true → token.type ≠ .Eof)
    {operand : P Expr} (fuel : Nat) (left : Expr)
    (operands : ∀ c' > c, Ends (operand m_tokens c') fun _ c'' => c' ≤ c'')
    (enough : m_tokens.length - c < fuel) :
    Advances isOperator (binaryLoop isOperator operand fuel left) m_tokens c := by
  induction fuel generalizing left c with
  | zero => cases enough
  | succ fuel ih =>
    unfold Advances binaryLoop
    simp only [Parser.bind_apply, peek_apply, done_andThen, Parser.ite_apply]
    by_cases is : isOperator (tokenAt m_tokens c) = true
    · have inTokens := lt_of_type_ne (noEof _ is)
      rw [if_pos is, advance_apply (noEof _ is), done_andThen]
      refine (operands (c + 1) (lt_succ_self c)).andThen ?_
      intro right c' forward
      refine (ih _ ?_ ?_).imp ?_
      · exact fun c'' less => operands c'' (by omega)
      · omega
      · intro _ c'' told
        have further := told.1
        exact ⟨by omega, fun _ => by omega⟩
    · rw [if_neg is]
      exact ⟨Nat.le_refl c, fun starts => absurd starts is⟩

theorem argsLoop_ends {argument : P A} (fuel : Nat) (args : List A)
    (arguments : ∀ c' ≥ c, Ends (argument m_tokens c') fun _ c'' => c' ≤ c'')
    (enough : m_tokens.length - c < fuel) :
    Ends (argsLoop argument fuel args m_tokens c) fun _ c' => c ≤ c' := by
  induction fuel generalizing args c with
  | zero => cases enough
  | succ fuel ih =>
    unfold argsLoop
    simp only [Parser.bind_apply, peek_apply, done_andThen, Parser.ite_apply]
    split
    · exact Nat.le_refl c
    · refine (arguments c (Nat.le_refl c)).andThen ?_
      intro arg c' forward
      refine (eat_ends c' (by decide)).andThen ?_
      intro more c'' told
      cases more with
      | false =>
        obtain ⟨-, rfl⟩ := told
        exact forward
      | true =>
        obtain ⟨is, rfl⟩ := told
        have isType := Token.type_of_is is
        have inTokens := lt_of_type_ne (c := c') (by rw [isType]; decide)
        refine (ih _ ?_ ?_).imp ?_
        · exact fun c'' le => arguments c'' (by omega)
        · omega
        · intro _ c'' further
          omega

theorem forward_args {argument : P A} (arguments : Forward m_tokens c argument)
    (enough : m_tokens.length - c < fuel) : Forward m_tokens c (parse_args argument fuel) :=
  .bind (fun _ le => argsLoop_ends fuel [] (arguments.mono le) (by omega)) fun args =>
    forward_close args (by decide)

theorem Token.idle_cases (isIdle : token.isIdle = true) :
    token.type ≠ .String ∧ token.type ≠ .Identifier ∧ token.type ≠ .Number ∧
      (token.type = .Punctuation → token.value ∉ ["[", "\x7b", "("]) ∧
      (token.type = .Operator → token.value ∉
          ["+", "-", "~", "|", "==", "!=", "<", ">", "<=", ">="]) := by
  rcases token with ⟨type, value⟩
  cases type with
  | String => nomatch isIdle
  | Identifier => nomatch isIdle
  | Number => nomatch isIdle
  | Punctuation =>
    refine ⟨nofun, nofun, nofun, fun _ => ?_, nofun⟩
    simpa only [Token.isIdle, Bool.not_eq_true', contains_eq_mem,
      decide_eq_false_iff_not] using isIdle
  | Operator =>
    refine ⟨nofun, nofun, nofun, nofun, fun _ => ?_⟩
    simpa only [Token.isIdle, Bool.not_eq_true', contains_eq_mem,
      decide_eq_false_iff_not] using isIdle
  | _ => exact ⟨nofun, nofun, nofun, nofun, nofun⟩

theorem eat_takes (given : type ≠ .Eof)
    (takes : (tokenAt m_tokens c').is type value = true ∨ c < c') (forward : c ≤ c') :
    Ends (eat type value m_tokens c') fun _ c'' => c < c'' := by
  refine (eat_ends c' given).imp ?_
  intro taken c'' told
  cases taken with
  | false =>
    obtain ⟨isNot, rfl⟩ := told
    exact takes.resolve_left isNot
  | true =>
    obtain ⟨-, rfl⟩ := told
    exact lt_succ_of_le forward

/-! ## Items -/

/-- The loop over the items in front of a bracket. -/
def itemsLoop {A : Type} (watched : Bool) (closing : String) (blocks : Token → Bool) (item : P A) :
    Nat → List A → P (List A)
  | 0, _ => .outOfFuel
  | fuel + 1, items => do
      let token ← peek
      if token.is .Punctuation closing then
        pure items
      else if watched ∧ blocks token then
        .blocked
      else
        let next ← item
        itemsLoop watched closing blocks item fuel (items ++ [next])

/-- A round of `listLoop`. -/
def listItem (parse_expression : Bool → P Expr) : P Expr := do
  let item ← parse_expression true
  let _ ← eat .Punctuation ","
  pure item

/-- A round of `dictLoop`. -/
def dictItem (parse_expression : Bool → P Expr) : P (Expr × Expr) := do
  let key ← parse_expression true
  let _ ← eat .Punctuation ":"
  let val ← parse_expression true
  let _ ← eat .Punctuation ","
  pure (key, val)

theorem itemsLoop_ends {closing : String} {blocks : Token → Bool} {item : P A}
    (fuel : Nat) (items : List A)
    (takes : ∀ c' > start, ¬blocks (tokenAt m_tokens c') = true →
      c' < m_tokens.length ∧ Ends (item m_tokens c') fun _ c'' => c' < c'')
    (isBehind : start < c) (enough : m_tokens.length - c < fuel) :
    Ends (itemsLoop true closing blocks item fuel items m_tokens c) fun _ c' => c ≤ c' := by
  induction fuel generalizing items c with
  | zero => cases enough
  | succ fuel ih =>
    unfold itemsLoop
    simp only [Parser.bind_apply, peek_apply, done_andThen, Parser.ite_apply]
    split
    · exact Nat.le_refl c
    · split
      · trivial
      · next notBlocked =>
        rw [true_and] at notBlocked
        obtain ⟨inTokens, ends⟩ := takes c isBehind notBlocked
        refine ends.andThen fun next c' less => ?_
        exact (ih _ (by omega) (by omega)).of_le (by omega)

section Expressions

variable {parse_expression : Bool → P Expr}

theorem listLoop_eq (watched : Bool) (fuel : Nat) :
    listLoop watched parse_expression fuel =
      itemsLoop watched "]" Token.blocksList (listItem parse_expression) fuel := by
  induction fuel with
  | zero => rfl
  | succ fuel ih =>
    funext items
    simp only [listLoop, itemsLoop, listItem, ih, bind_assoc, pure_bind]

theorem dictLoop_eq (watched : Bool) (fuel : Nat) :
    dictLoop watched parse_expression fuel =
      itemsLoop watched "\x7d" Token.blocksDict (dictItem parse_expression) fuel := by
  induction fuel with
  | zero => rfl
  | succ fuel ih =>
    funext items
    simp only [dictLoop, itemsLoop, dictItem, ih, bind_assoc, pure_bind]

/-- An expression takes a token, or there is an idle one. -/
theorem AdvancesBehind.idle_or (behind : AdvancesBehind parse_expression m_tokens start)
    (isBehind : start < c) :
    Ends (parse_expression true m_tokens c) fun _ c' =>
      c ≤ c' ∧ (c = c' → (tokenAt m_tokens c).isIdle = true) := by
  refine (behind true c isBehind).imp fun _ c' told => ⟨told.1, fun same => ?_⟩
  by_contra begins
  have less := told.2 (by rw [Token.begins, Bool.eq_false_iff.mpr begins]; rfl)
  exact Nat.lt_irrefl c (same ▸ less)

theorem listItem_takes (behind : AdvancesBehind parse_expression m_tokens start)
    (isBehind : start < c) (notBlocked : ¬(tokenAt m_tokens c).blocksList = true) :
    c < m_tokens.length ∧ Ends (listItem parse_expression m_tokens c) fun _ c' => c < c' := by
  rw [Token.blocksList, Bool.and_eq_true, Bool.not_eq_true', Bool.eq_false_iff] at notBlocked
  refine ⟨lt_of_type_ne fun isEof => notBlocked ?_, ?_⟩
  · unfold Token.isIdle Token.is
    rw [isEof]
    exact ⟨rfl, nofun⟩
  refine (behind.idle_or isBehind).andThen fun item c₁ told => ?_
  refine (eat_takes (by decide) ?_ told.1).andThen fun _ c₂ less => less
  rcases Nat.eq_or_lt_of_le told.1 with rfl | less
  · exact .inl (by_contra fun noComma => notBlocked ⟨told.2 rfl, noComma⟩)
  · exact .inr less

theorem dictItem_takes (behind : AdvancesBehind parse_expression m_tokens start)
    (isBehind : start < c) (notBlocked : ¬(tokenAt m_tokens c).blocksDict = true) :
    c < m_tokens.length ∧ Ends (dictItem parse_expression m_tokens c) fun _ c' => c < c' := by
  simp only [Token.blocksDict, Bool.and_eq_true, Bool.not_eq_true', Bool.eq_false_iff]
    at notBlocked
  refine ⟨lt_of_type_ne fun isEof => notBlocked ?_, ?_⟩
  · unfold Token.isIdle Token.is
    rw [isEof]
    exact ⟨⟨rfl, nofun⟩, nofun⟩
  refine (behind.idle_or isBehind).andThen fun key c₁ toldKey => ?_
  refine (eat_ends c₁ (by decide)).andThen fun colon c₂ toldColon => ?_
  have afterKey : c ≤ c₂ ∧ (c = c₂ → (tokenAt m_tokens c).isIdle = true ∧
      ¬(tokenAt m_tokens c).is .Punctuation ":" = true) := by
    have forward := toldKey.1
    cases colon with
    | true => exact ⟨by have := toldColon.2; omega, fun same => by have := toldColon.2; omega⟩
    | false =>
      obtain ⟨noColon, rfl⟩ := toldColon
      refine ⟨forward, ?_⟩
      rintro rfl
      exact ⟨toldKey.2 rfl, noColon⟩
  refine (behind.idle_or (Nat.lt_of_lt_of_le isBehind afterKey.1)).andThen fun val c₃ toldVal => ?_
  refine (eat_takes (by decide) ?_ (Nat.le_trans afterKey.1 toldVal.1)).andThen
    fun _ c₄ less => less
  rcases Nat.eq_or_lt_of_le (Nat.le_trans afterKey.1 toldVal.1) with rfl | less
  · have told := afterKey.2 (Nat.le_antisymm afterKey.1 toldVal.1)
    exact .inl (by_contra fun noComma => notBlocked ⟨⟨told.1, noComma⟩, told.2⟩)
  · exact .inr less

/-! ## Primary expressions -/

theorem forward_bound {stops : Token → Bool}
    (behind : AdvancesBehind parse_expression m_tokens start) (isBehind : start < c) :
    Forward m_tokens c (parse_bound parse_expression stops) :=
  .bind forward_peek fun _ => .ite (.pure _) (.bind (behind.forward isBehind true) fun _ => .pure _)

theorem forward_index (behind : AdvancesBehind parse_expression m_tokens start)
    (isBehind : start < c) : Forward m_tokens c (parse_index parse_expression) := by
  refine .bind (forward_bound behind isBehind) fun first => ?_
  refine .bind (forward_eat (by decide)) fun is_slice => .ite ?_ (forward_close _ (by decide))
  refine .bind (forward_bound behind isBehind) fun stop => ?_
  refine .bind (forward_eat (by decide)) fun second => .ite ?_ (forward_close _ (by decide))
  exact .bind (forward_bound behind isBehind) fun step => forward_close _ (by decide)

theorem accessLoop_ends {argsFuel : Nat} (fuel : Nat) (expr : Expr)
    (behind : AdvancesBehind parse_expression m_tokens start)
    (isBehind : start < c) (enoughArgs : m_tokens.length - c < argsFuel)
    (enough : m_tokens.length - c < fuel) :
    Ends (accessLoop parse_expression argsFuel fuel expr m_tokens c) fun _ c' => c ≤ c' := by
  induction fuel generalizing expr c with
  | zero => cases enough
  | succ fuel ih =>
    unfold accessLoop
    rw [Parser.bind_apply]
    refine (eat_ends c (by decide)).andThen ?_
    intro bracket c₁ toldBracket
    cases bracket with
    | true =>
      obtain ⟨is, rfl⟩ := toldBracket
      have inTokens := lt_of_type_ne (is_ne_eof _ (by decide) _ _ is)
      rw [Parser.ite_apply, if_pos rfl, Parser.bind_apply]
      refine (forward_index behind (by omega) _ (Nat.le_refl _)).andThen ?_
      intro index c₂ forward
      exact (ih _ (by omega) (by omega) (by omega)).of_le (by omega)
    | false =>
      obtain ⟨-, rfl⟩ := toldBracket
      rw [Parser.ite_apply, if_neg Bool.false_ne_true, Parser.bind_apply]
      refine (eat_ends c₁ (by decide)).andThen ?_
      intro dot c₂ toldDot
      cases dot with
      | false =>
        obtain ⟨-, rfl⟩ := toldDot
        exact Nat.le_refl c₂
      | true =>
        obtain ⟨is, rfl⟩ := toldDot
        have inTokens := lt_of_type_ne (is_ne_eof _ (by decide) _ _ is)
        simp only [Parser.ite_apply, if_true, Parser.bind_apply, peek_apply, done_andThen]
        split
        · refine (advance_ends (c₁ + 1)).andThen ?_
          intro member c₃ forward₃
          refine (eat_forward c₃ (by decide)).andThen ?_
          intro call c₄ forward₄
          split
          · refine (forward_args (behind.forward (by omega) true) (by omega) c₄
              (Nat.le_refl c₄)).andThen ?_
            intro args c₅ forward₅
            exact (ih _ (by omega) (by omega) (by omega)).of_le (by omega)
          · exact (ih _ (by omega) (by omega) (by omega)).of_le (by omega)
        · exact (ih _ (by omega) (by omega) (by omega)).of_le (by omega)

theorem forward_argument (behind : AdvancesBehind parse_expression m_tokens start)
    (isBehind : start < c) : Forward m_tokens c (parse_argument parse_expression) := by
  refine .bind ?_ fun arg_name => .bind (behind.forward isBehind true) fun _ => .pure _
  refine .bind forward_peek fun token => .bind (fun c' _ => Nat.le_refl c') fun next => ?_
  exact .ite (.bind forward_advance fun name => .bind forward_advance fun _ => .pure _) (.pure _)

theorem parse_name_ends (behind : AdvancesBehind parse_expression m_tokens c)
    (isName : (tokenAt m_tokens c).type = .Identifier) (enough : m_tokens.length - c < fuel) :
    Ends (parse_name parse_expression fuel m_tokens c) fun _ c' => c < c' := by
  have notEof : (tokenAt m_tokens c).type ≠ .Eof := by
    rw [isName]
    decide
  unfold parse_name
  simp only [Parser.bind_apply, advance_apply notEof, done_andThen, Parser.ite_apply]
  split
  · exact lt_succ_self c
  · split
    · exact lt_succ_self c
    · split
      · exact lt_succ_self c
      · refine (eat_forward (c + 1) (by decide)).andThen ?_
        intro call c₁ forward
        split
        · refine (forward_args (forward_argument behind (by omega)) (by omega) c₁
            (Nat.le_refl c₁)).andThen ?_
          intro args c₂ forward₂
          exact (accessLoop_ends fuel _ behind (by omega) (by omega) (by omega)).of_le (by omega)
        · exact (accessLoop_ends fuel _ behind (by omega) (by omega)
              (by omega)).of_le (by omega)

/-- The tokens that begin a primary expression. -/
def Token.beginsPrimary (token : Token) : Bool :=
  token.type == .String || token.type == .Identifier ||
    token.type == .Number || token.is .Punctuation "[" ||
      token.is .Punctuation "\x7b" || token.is .Punctuation "("

theorem parse_primary_ends (fuel : Nat) (behind :
      c < m_tokens.length → AdvancesBehind parse_expression m_tokens c)
    (enough : m_tokens.length - c < fuel) :
    Advances Token.beginsPrimary (parse_primary true parse_expression fuel) m_tokens c := by
  have taken {α : Type} {outcome : Outcome α} (ends : Ends outcome fun _ c' => c + 1 ≤ c') :
      Ends outcome fun _ c' =>
        c ≤ c' ∧ ((tokenAt m_tokens c).beginsPrimary = true → c < c') :=
    ends.imp fun _ _ less => ⟨Nat.le_of_lt less, fun _ => less⟩
  unfold Advances parse_primary
  simp only [listLoop_eq, dictLoop_eq, Parser.bind_apply, peek_apply, done_andThen,
    Parser.ite_apply]
  split
  · next is =>
    have notEof := is_ne_eof _ (by decide) _ _ is
    rw [advance_apply notEof, done_andThen]
    refine taken ((itemsLoop_ends fuel [] (fun _ => listItem_takes (behind (lt_of_type_ne notEof)))
      (lt_succ_self c) (by omega)).forward ?_)
    exact fun items c₁ _ => forward_close _ (by decide) c₁ (Nat.le_refl c₁)
  · next noBracket =>
    split
    · next is =>
      have notEof := is_ne_eof _ (by decide) _ _ is
      rw [advance_apply notEof, done_andThen]
      refine taken ((itemsLoop_ends fuel []
        (fun _ => dictItem_takes (behind (lt_of_type_ne notEof)))
        (lt_succ_self c) (by omega)).forward ?_)
      exact fun items c₁ _ => forward_close _ (by decide) c₁ (Nat.le_refl c₁)
    · next noBrace =>
      split
      · next is =>
        rw [advance_apply (by rw [is]; decide), done_andThen]
        exact taken (Nat.le_refl (c + 1))
      · next noString =>
        split
        · next is =>
          have inTokens := lt_of_type_ne (c := c) (by rw [is]; decide)
          exact taken (parse_name_ends (behind inTokens) is enough)
        · next noName =>
          split
          · next is =>
            rw [advance_apply (by rw [is]; decide), done_andThen]
            exact taken (Nat.le_refl (c + 1))
          · next noNumber =>
            split
            · next is =>
              have notEof := is_ne_eof _ (by decide) _ _ is
              rw [advance_apply notEof, done_andThen]
              exact taken ((Forward.bind ((behind (lt_of_type_ne notEof)).forward (lt_succ_self c)
                true) fun expr => forward_close expr (by decide)) _ (Nat.le_refl _))
            · next noParenthesis =>
              refine ⟨Nat.le_refl c, fun begins => ?_⟩
              simp only [Token.beginsPrimary, Bool.or_eq_true, beq_iff_eq] at begins
              tauto

/-! ## The ranks of operators -/

theorem Advances.andThen {starts' : Token → Bool} {parser : P α}
    {loop : α → P β} (advances : Advances starts parser m_tokens c)
    (loops : ∀ value, ∀ c' ≥ c, Advances starts' (loop value) m_tokens c') :
    Advances (fun token => starts token || starts' token) (parser >>= loop) m_tokens c := by
  unfold Advances
  rw [Parser.bind_apply]
  refine Ends.andThen advances ?_
  intro value c' told
  refine (loops value c' told.1).imp ?_
  intro _ c'' told'
  refine ⟨Nat.le_trans told.1 told'.1, fun begins => ?_⟩
  rcases Nat.eq_or_lt_of_le told.1 with rfl | less
  · rw [Bool.or_eq_true] at begins
    rcases begins with begins | begins
    · exact Nat.lt_of_lt_of_le (told.2 begins) told'.1
    · exact told'.2 begins
  · exact Nat.lt_of_lt_of_le less told'.1

def Token.isSign (token : Token) : Bool := token.is .Operator "+" || token.is .Operator "-"

def Token.beginsUnary (token : Token) : Bool := token.beginsPrimary || token.isSign

theorem Token.type_of_isSign (is : token.isSign = true) : token.type ≠ .Eof := by
  rw [Token.isSign, Bool.or_eq_true] at is
  rcases is with is | is
  all_goals exact is_ne_eof _ (by decide) _ _ is

theorem parse_unary_ends {primary : P Expr} (fuel : Nat) (primaries :
      ∀ c' ≥ c, Advances Token.beginsPrimary primary m_tokens c')
    (enough : m_tokens.length - c < fuel) :
    Advances Token.beginsUnary (parse_unary primary fuel) m_tokens c := by
  induction fuel generalizing c with
  | zero => cases enough
  | succ fuel ih =>
    unfold Advances parse_unary
    simp only [Parser.bind_apply, peek_apply, done_andThen, Parser.ite_apply]
    split
    · next is =>
      have notEof := Token.type_of_isSign is
      have inTokens := lt_of_type_ne notEof
      rw [advance_apply notEof, done_andThen]
      have operand := @ih (c + 1) (fun c' le => primaries c' (by omega)) (by omega)
      refine Ends.andThen operand ?_
      intro right c' told
      have forward := told.1
      exact ⟨by omega, fun _ => by omega⟩
    · next noSign =>
      refine (primaries c (Nat.le_refl c)).imp ?_
      intro _ c' told
      refine ⟨told.1, fun begins => told.2 ?_⟩
      rw [Token.beginsUnary, Bool.or_eq_true] at begins
      exact begins.resolve_right noSign

theorem filterLoop_ends (argsFuel fuel : Nat) (left : Expr) (behind :
      c < m_tokens.length → AdvancesBehind parse_expression m_tokens c)
    (enoughArgs : m_tokens.length - c < argsFuel) (enough : m_tokens.length - c < fuel) :
    Advances (fun token => token.is .Operator "|")
      (filterLoop parse_expression argsFuel fuel left) m_tokens c := by
  induction fuel generalizing left c with
  | zero => cases enough
  | succ fuel ih =>
    unfold Advances filterLoop
    rw [Parser.bind_apply]
    refine (eat_ends c (by decide)).andThen ?_
    intro bar c₁ toldBar
    cases bar with
    | false =>
      obtain ⟨noBar, rfl⟩ := toldBar
      exact ⟨Nat.le_refl c₁, fun isBar => absurd isBar noBar⟩
    | true =>
      obtain ⟨is, rfl⟩ := toldBar
      have inTokens := lt_of_type_ne (is_ne_eof _ (by decide) _ _ is)
      have behind := behind inTokens
      have goesOn (left : Expr) (c' : Nat) (less : c < c') : Ends
            (filterLoop parse_expression argsFuel fuel left m_tokens c')
            fun _ c'' =>
              c ≤ c'' ∧ ((tokenAt m_tokens c).is .Operator "|" = true → c < c'') := by
        refine (ih left (fun _ => behind.mono (Nat.le_of_lt less)) (by omega) (by omega)).imp ?_
        intro _ c'' told
        have forward := told.1
        exact ⟨by omega, fun _ => by omega⟩
      simp only [Parser.ite_apply, if_true, Parser.bind_apply, peek_apply, done_andThen]
      split
      · refine (advance_ends (c + 1)).andThen ?_
        intro name c₂ forward₂
        refine (eat_forward c₂ (by decide)).andThen ?_
        intro call c₃ forward₃
        split
        · refine (forward_args (forward_argument behind (by omega)) (by omega) c₃
            (Nat.le_refl c₃)).andThen ?_
          intro args c₄ forward₄
          exact goesOn _ c₄ (by omega)
        · exact goesOn _ c₃ (by omega)
      · exact goesOn _ (c + 1) (lt_succ_self c)

theorem type_of_isCompare (is : isCompare token = true) : token.type ≠ .Eof := by
  intro isEof
  rw [isCompare, isEof] at is
  nomatch is

theorem compareLoop_ends {operand : P Expr} (fuel : Nat) (left : Expr)
    (operands : ∀ c' > c, Ends (operand m_tokens c') fun _ c'' => c' ≤ c'')
    (enough : m_tokens.length - c < fuel) :
    Advances isCompare (compareLoop operand fuel left) m_tokens c := by
  induction fuel generalizing left c with
  | zero => cases enough
  | succ fuel ih =>
    unfold Advances compareLoop
    simp only [Parser.bind_apply, peek_apply, done_andThen, Parser.ite_apply]
    split
    · next is =>
      have notEof := type_of_isCompare is
      have inTokens := lt_of_type_ne notEof
      have goesOn (left : Expr) (c' : Nat) (less : c < c') :
          Ends (compareLoop operand fuel left m_tokens c') fun _ c'' =>
            c ≤ c'' ∧ (isCompare (tokenAt m_tokens c) = true → c < c'') := by
        refine (ih left (fun c'' further => operands c'' (by omega)) (by omega)).imp ?_
        intro _ c'' told
        have forward := told.1
        exact ⟨by omega, fun _ => by omega⟩
      rw [advance_apply notEof, done_andThen]
      split
      · refine (eat_forward (c + 1) (by decide)).andThen ?_
        intro is_not c₁ forward₁
        refine (advance_ends c₁).andThen ?_
        intro test_name c₂ forward₂
        exact goesOn _ c₂ (by omega)
      · split
        · refine (eat_forward (c + 1) (by decide)).andThen ?_
          intro isIn c₁ forward₁
          split
          · refine (operands c₁ (by omega)).andThen ?_
            intro right c₂ forward₂
            exact goesOn _ c₂ (by omega)
          · exact ⟨by omega, fun _ => by omega⟩
        · refine (operands (c + 1) (lt_succ_self c)).andThen ?_
          intro right c₁ forward₁
          exact goesOn _ c₁ (by omega)
    · next noCompare =>
      exact ⟨Nat.le_refl c, fun isCompare => absurd isCompare noCompare⟩

theorem parse_not_ends {compare : P Expr} (fuel : Nat)
    (compares : ∀ c' ≥ c, Advances starts compare m_tokens c')
    (enough : m_tokens.length - c < fuel) :
    Advances starts (parse_not compare fuel) m_tokens c := by
  induction fuel generalizing c with
  | zero => cases enough
  | succ fuel ih =>
    unfold Advances parse_not
    simp only [Parser.bind_apply, peek_apply, done_andThen, Parser.ite_apply]
    split
    · next is =>
      have notEof := is_ne_eof _ (by decide) _ _ is
      have inTokens := lt_of_type_ne notEof
      rw [advance_apply notEof, done_andThen]
      have operand := @ih (c + 1) (fun c' le => compares c' (by omega)) (by omega)
      refine Ends.andThen operand ?_
      intro expr c' told
      have forward := told.1
      exact ⟨by omega, fun _ => by omega⟩
    · exact compares c (Nat.le_refl c)

end Expressions

/-! ## Whole expressions -/

/-- The tokens that begin an expression, or an operator behind one. -/
def Token.beginsOr (token : Token) : Bool := ((((token.beginsUnary || token.is .Operator "|") ||
          (token.is .Operator "+" || token.is .Operator "-" || token.is .Operator "~")) ||
        isCompare token) ||
      token.is .Identifier "and") ||
    token.is .Identifier "or"

theorem Token.beginsOr_of_begins (begins : token.begins = true) :
    token.beginsOr = true := by
  rcases token with ⟨type, value⟩
  cases type with
  | String => rfl
  | Identifier => rfl
  | Number => rfl
  | Punctuation =>
    simp only [Token.begins, Token.isIdle, Bool.not_not,
      contains_eq_mem, decide_eq_true_eq, mem_cons,
      not_mem_nil, or_false] at begins
    rcases begins with rfl | rfl | rfl
    all_goals rfl
  | Operator =>
    simp only [Token.begins, Token.isIdle, Bool.not_not,
      contains_eq_mem, decide_eq_true_eq, mem_cons,
      not_mem_nil, or_false] at begins
    rcases begins with
      rfl | rfl | rfl | rfl | rfl | rfl | rfl | rfl | rfl | rfl
    all_goals rfl
  | _ => nomatch begins

section Expressions

variable {parse_expression : Bool → P Expr}

/-- A watched run ends, from `parse_or` down to `parse_primary`. -/
theorem orFrom_ends (behind : c < m_tokens.length → AdvancesBehind parse_expression m_tokens c)
    (enough : m_tokens.length - c < fuel) :
    Advances Token.beginsOr (orFrom true parse_expression fuel) m_tokens c := by
  have behind (c' : Nat) (le : c ≤ c') :
      c' < m_tokens.length → AdvancesBehind parse_expression m_tokens c' :=
    fun inTokens => (behind (by omega)).mono le
  have primaries (c' : Nat) (le : c' ≥ c) := parse_primary_ends fuel (behind c' le) (by omega)
  have unaries (c' : Nat) (le : c' ≥ c) := parse_unary_ends fuel
      (fun c'' le' => primaries c'' (Nat.le_trans le le')) (by omega)
  have filters (c' : Nat) (le : c' ≥ c) := Advances.andThen (unaries c' le) fun left c'' le' =>
      filterLoop_ends fuel fuel left (behind c'' (Nat.le_trans le le')) (by omega) (by omega)
  have adds (c' : Nat) (le : c' ≥ c) := Advances.andThen (filters c' le) fun left c'' le' =>
      binaryLoop_ends (c := c'') (fun token =>
          token.is .Operator "+" || token.is .Operator "-" || token.is .Operator "~")
        (by
          intro token is
          simp only [Bool.or_eq_true] at is
          rcases is with (is | is) | is
          all_goals exact is_ne_eof _ (by decide) _ token is)
        fuel left (fun c₃ less => (filters c₃ (by omega)).forward) (by omega)
  have compares (c' : Nat) (le : c' ≥ c) := Advances.andThen (adds c' le) fun left c'' le' =>
      compareLoop_ends fuel left (fun c₃ less => (adds c₃ (by omega)).forward) (by omega)
  have nots (c' : Nat) (le : c' ≥ c) := parse_not_ends fuel
      (fun c'' le' => compares c'' (Nat.le_trans le le')) (by omega)
  have ands (c' : Nat) (le : c' ≥ c) := Advances.andThen (nots c' le) fun left c'' le' =>
      binaryLoop_ends (c := c'') _ (is_ne_eof .Identifier (by decide) "and") fuel left
        (fun c₃ less => (nots c₃ (by omega)).forward) (by omega)
  exact Advances.andThen (ands c (Nat.le_refl c)) fun left c'' le' =>
      binaryLoop_ends (c := c'') _ (is_ne_eof .Identifier (by decide) "or") fuel left
        (fun c₃ less => (ands c₃ (by omega)).forward) (by omega)

theorem expressionFrom_ends {parse_or : P Expr} (allow_ternary : Bool) (behind :
      c < m_tokens.length → AdvancesBehind parse_expression m_tokens c)
    (operands : ∀ c' ≥ c, Advances Token.beginsOr parse_or m_tokens c') :
    Advances Token.begins (expressionFrom parse_expression parse_or allow_ternary) m_tokens c := by
  unfold Advances expressionFrom
  rw [Parser.bind_apply]
  refine Ends.andThen (operands c (Nat.le_refl c)) ?_
  intro expr c₁ told
  have toldFurther {c' : Nat} (le : c₁ ≤ c') :
      c ≤ c' ∧ ((tokenAt m_tokens c).begins = true → c < c') :=
    ⟨Nat.le_trans told.1 le, fun begins =>
      Nat.lt_of_lt_of_le (told.2 (Token.beginsOr_of_begins begins)) le⟩
  have forward := told.1
  simp only [Parser.bind_apply, peek_apply, done_andThen, Parser.ite_apply]
  split
  · next is =>
    have notEof := is_ne_eof _ (by decide) _ _ is.2
    have inTokens := lt_of_type_ne notEof
    rw [advance_apply notEof, done_andThen]
    refine (operands (c₁ + 1) (by omega)).forward.andThen ?_
    intro cond c₂ forward₂
    refine (eat_forward c₂ (by decide)).andThen ?_
    intro hasElse c₃ forward₃
    split
    · refine (behind (by omega) true c₃ (by omega)).forward.andThen ?_
      intro else_expr c₄ forward₄
      exact toldFurther (by omega)
    · exact toldFurther (by omega)
  · exact toldFurther (Nat.le_refl c₁)

end Expressions

theorem parse_expression_ends (fuel : Nat) (allow_ternary : Bool) (c : Nat)
    (enough : m_tokens.length - c + 1 < fuel) :
    Advances Token.begins (parse_expression true fuel allow_ternary) m_tokens c := by
  induction fuel generalizing allow_ternary c with
  | zero => cases enough
  | succ fuel ih =>
    have behind (inTokens : c < m_tokens.length) :
        AdvancesBehind (parse_expression true fuel) m_tokens c :=
      fun allow_ternary c' less => ih allow_ternary c' (by omega)
    refine expressionFrom_ends allow_ternary behind fun c' le => ?_
    refine orFrom_ends (fun inTokens => ?_) (by omega)
    exact (behind (by omega)).mono le

/-! ## Statements -/

/-- Expressions end, wherever they begin. -/
def ExpressionsEnd (parse_expression : Bool → P Expr) (m_tokens : List Token) : Prop :=
  ∀ allow_ternary c, Ends (parse_expression allow_ternary m_tokens c) fun _ c' => c ≤ c'

theorem ExpressionsEnd.forward {parse_expression : Bool → P Expr}
    (expressions : ExpressionsEnd parse_expression m_tokens) (allow_ternary : Bool) :
    Forward m_tokens start (parse_expression allow_ternary) :=
  fun c _ => expressions allow_ternary c

/-- Blocks behind a place end, and take their tokens. -/
def BlocksEnd (parse_block : P Node) (m_tokens : List Token) (c : Nat) : Prop :=
  ∀ c' ≥ c, (tokenAt m_tokens c').type = .BlockStart →
    Ends (parse_block m_tokens c') fun _ c'' => c' < c''

theorem BlocksEnd.mono {parse_block : P Node}
    (blocks : BlocksEnd parse_block m_tokens c) (le : c ≤ c') :
    BlocksEnd parse_block m_tokens c' :=
  fun c'' le' => blocks c'' (Nat.le_trans le le')

section Statements

variable {parse_expression : Bool → P Expr} {parse_block : P Node}

theorem parse_print_ends (expressions : ExpressionsEnd parse_expression m_tokens)
    (notEof : (tokenAt m_tokens c).type ≠ .Eof) :
    Ends (parse_print parse_expression m_tokens c) fun _ c' => c < c' := by
  unfold parse_print
  rw [Parser.bind_apply, advance_apply notEof, done_andThen]
  exact (Forward.bind (expressions.forward true) fun expr =>
    .bind forward_eatType fun _ => .pure _) (c + 1) (Nat.le_refl _)

theorem parse_item_ends (expressions : ExpressionsEnd parse_expression m_tokens)
    (blocks : BlocksEnd parse_block m_tokens c) (notEof : (tokenAt m_tokens c).type ≠ .Eof) :
    Ends (parse_item parse_expression parse_block m_tokens c) fun _ c' =>
      c < c' := by
  unfold parse_item
  simp only [Parser.bind_apply, peek_apply, done_andThen, Parser.ite_apply, advance_apply notEof]
  split
  · exact lt_succ_self c
  · split
    · refine (parse_print_ends expressions notEof).andThen ?_
      exact fun _ c₁ less => less
    · split
      · next isBlock =>
        refine (blocks c (Nat.le_refl c) isBlock).andThen ?_
        exact fun _ c₁ less => less
      · exact lt_succ_self c

theorem forward_endTag : Forward m_tokens start endTag :=
  .bind forward_advance fun _ => .bind forward_advance fun _ => forward_eatType

theorem bodyLoop_ends (isEnd : Token → Option Token × Bool → Bool)
    (expressions : ExpressionsEnd parse_expression m_tokens) (fuel : Nat)
    (body : List Node) (blocks : BlocksEnd parse_block m_tokens c)
    (enough : m_tokens.length - c < fuel) :
    Ends (bodyLoop parse_expression parse_block isEnd fuel body m_tokens c) fun _ c' => c ≤ c' := by
  induction fuel generalizing body c with
  | zero => cases enough
  | succ fuel ih =>
    unfold bodyLoop
    simp only [Parser.bind_apply, peek_apply, peekNext_apply, done_andThen, Parser.ite_apply]
    split
    · exact Nat.le_refl c
    · next notEof =>
      have inTokens := lt_of_type_ne notEof
      split
      · exact (Forward.bind forward_endTag fun _ => .pure _) c (Nat.le_refl c)
      · refine (parse_item_ends expressions blocks notEof).andThen ?_
        intro item c₁ less
        exact (ih _ (blocks.mono (by omega)) (by omega)).of_le (by omega)

theorem varsLoop_ends (fuel : Nat) (vars : List String) (enough : m_tokens.length - c < fuel) :
    Ends (varsLoop fuel vars m_tokens c) fun _ c' => c ≤ c' := by
  induction fuel generalizing vars c with
  | zero => cases enough
  | succ fuel ih =>
    unfold varsLoop
    simp only [Parser.bind_apply, peek_apply, done_andThen, Parser.ite_apply]
    split
    · next is =>
      have notEof : (tokenAt m_tokens c).type ≠ .Eof := by
        rw [is]
        decide
      have inTokens := lt_of_type_ne notEof
      rw [advance_apply notEof, done_andThen]
      refine (eat_forward (c + 1) (by decide)).andThen ?_
      intro more c₁ forward
      split
      · exact (ih _ (by omega)).of_le (by omega)
      · show c ≤ c₁
        omega
    · exact Nat.le_refl c

section

variable (expressions : ExpressionsEnd parse_expression m_tokens)

include expressions

theorem forward_for (blocks : BlocksEnd parse_block m_tokens c)
    (enough : m_tokens.length - c < fuel) :
    Forward m_tokens c (parse_for parse_expression parse_block fuel) := by
  refine .bind (fun c' _ => varsLoop_ends fuel [] (by omega)) fun vars => ?_
  refine .bind (forward_eat (by decide)) fun _ => ?_
  refine .bind (expressions.forward false) fun iterable => ?_
  refine .bind (.bind (forward_eat (by decide)) fun isIf => .ite ?_ (.pure _)) fun filter_expr => ?_
  · exact .bind (expressions.forward true) fun _ => .pure _
  refine .bind forward_eatType fun _ => ?_
  exact .bind (fun c' le => bodyLoop_ends isEndfor expressions fuel [] (blocks.mono le) (by omega))
    fun _ => .pure _

/-- What `ifLoop` does, `else` and `elif` included, takes tokens. -/
theorem ifLoop_ends (fuel : Nat)
    (condition : Expr) (true_body false_body : List Node) (isElse : Bool)
    (blocks : BlocksEnd parse_block m_tokens c) (enough : m_tokens.length - c < fuel) :
    Ends (ifLoop parse_expression parse_block fuel condition true_body false_body
        isElse m_tokens c) fun _ c' => c ≤ c' := by
  induction fuel generalizing condition true_body false_body isElse c with
  | zero => cases enough
  | succ fuel ih =>
    unfold ifLoop
    simp only [Parser.bind_apply, peek_apply, peekNext_apply, done_andThen, Parser.ite_apply]
    split
    · exact Nat.le_refl c
    · next notEof =>
      have inTokens := lt_of_type_ne notEof
      split
      · exact (Forward.bind forward_endTag fun _ => .pure _) c (Nat.le_refl c)
      · split
        · have takes : Ends (endTag m_tokens c) fun _ c' => c < c' := by
            unfold endTag
            rw [Parser.bind_apply, advance_apply notEof, done_andThen]
            exact (Forward.bind forward_advance fun _ => forward_eatType) (c + 1) (Nat.le_refl _)
          refine takes.andThen ?_
          intro _ c₁ less
          exact (ih _ _ _ _ (blocks.mono (by omega)) (by omega)).of_le (by omega)
        · split
          · rw [advance_apply notEof, done_andThen]
            refine (advance_ends (c + 1)).andThen ?_
            intro _ c₁ forward₁
            refine (expressions true c₁).andThen ?_
            intro elif_cond c₂ forward₂
            refine (eatType_ends c₂).andThen ?_
            intro _ c₃ forward₃
            refine (ih _ _ _ _ (blocks.mono (by omega)) (by omega)).andThen ?_
            intro node c₄ forward₄
            show c ≤ c₄
            omega
          · refine (parse_item_ends expressions blocks notEof).andThen ?_
            intro item c₁ less
            split
            · exact (ih _ _ _ _ (blocks.mono (by omega))
                  (by omega)).of_le (by omega)
            · exact (ih _ _ _ _ (blocks.mono (by omega))
                  (by omega)).of_le (by omega)

theorem forward_if (blocks : BlocksEnd parse_block m_tokens c)
    (enough : m_tokens.length - c < fuel) :
    Forward m_tokens c (parse_if parse_expression parse_block fuel) :=
  .bind (expressions.forward true) fun condition => .bind forward_eatType fun _ c' le =>
    ifLoop_ends expressions fuel condition [] [] false (blocks.mono le) (by omega)

theorem forward_set : Forward m_tokens start (parse_set parse_expression) :=
  .bind (expressions.forward true) fun target => .bind (forward_eat (by decide)) fun _ =>
    .bind (expressions.forward true) fun value => .bind forward_eatType fun _ => .pure _

theorem forward_parameter : Forward m_tokens start (parse_parameter parse_expression) := by
  refine .bind forward_peek fun token => .ite (.bind forward_advance fun name => ?_) (.pure _)
  refine .bind (.bind (forward_eat (by decide)) fun isDefault => .ite ?_ (.pure _)) fun _ => .pure _
  exact .bind (expressions.forward true) fun _ => .pure _

theorem forward_macro (blocks : BlocksEnd parse_block m_tokens c)
    (enough : m_tokens.length - c < fuel) :
    Forward m_tokens c ( parse_macro parse_expression parse_block fuel) := by
  have rest (name : Token) (args : List (List String)) : Forward m_tokens c (do
      eatType .BlockEnd
      let body ← bodyLoop parse_expression parse_block isEndmacro fuel []
      pure (.MacroNode name.value args.flatten body) : P Node) :=
    .bind forward_eatType fun _ => .bind (fun c' le =>
      bodyLoop_ends isEndmacro expressions fuel [] (blocks.mono le) (by omega)) fun _ => .pure _
  refine .bind forward_advance fun name => .bind (forward_eat (by decide)) fun call => .ite ?_ ?_
  · exact .bind (forward_args (forward_parameter expressions) enough) (rest name)
  · exact rest name []

end

theorem skipBlock_ends (fuel : Nat) (enough : m_tokens.length - c < fuel) :
    Ends (skipBlock fuel m_tokens c) fun _ c' => c ≤ c' := by
  induction fuel generalizing c with
  | zero => cases enough
  | succ fuel ih =>
    unfold skipBlock
    simp only [Parser.bind_apply, peek_apply, done_andThen, Parser.ite_apply]
    split
    · exact Nat.le_refl c
    · next notEof =>
      have inTokens := lt_of_type_ne notEof
      rw [advance_apply notEof, done_andThen]
      split
      · exact le_succ c
      · exact (ih (by omega)).of_le (by omega)

theorem blockFrom_ends (expressions : ExpressionsEnd parse_expression m_tokens)
    (blocks : BlocksEnd parse_block m_tokens (c + 1)) (notEof : (tokenAt m_tokens c).type ≠ .Eof)
    (enough : m_tokens.length - c < fuel) :
    Ends (blockFrom parse_expression parse_block fuel m_tokens c) fun _ c' =>
      c < c' := by
  unfold blockFrom
  rw [Parser.bind_apply, advance_apply notEof, done_andThen]
  refine (Forward.bind forward_advance fun cmd => ?_) (c + 1) (Nat.le_refl _)
  refine .ite (forward_for expressions blocks (by omega)) ?_
  refine .ite (forward_if expressions blocks (by omega)) (.ite (forward_set expressions) ?_)
  refine .ite ( forward_macro expressions blocks (by omega)) (.bind (fun c' le => ?_) fun _ => .pure _)
  exact skipBlock_ends fuel (by omega)

end Statements

theorem expressionsEnd (enough : m_tokens.length + 1 < fuel) :
    ExpressionsEnd (parse_expression true fuel) m_tokens :=
  fun allow_ternary c =>
    (parse_expression_ends fuel allow_ternary c (by omega)).forward

theorem parse_block_ends (fuel c : Nat) (isBlock : (tokenAt m_tokens c).type = .BlockStart)
    (enough : m_tokens.length + 2 + (m_tokens.length - c) < fuel) :
    Ends (parse_block true fuel m_tokens c) fun _ c' => c < c' := by
  induction fuel generalizing c with
  | zero => cases enough
  | succ fuel ih =>
    have notEof : (tokenAt m_tokens c).type ≠ .Eof := by
      rw [isBlock]
      decide
    have inTokens := lt_of_type_ne notEof
    refine blockFrom_ends (expressionsEnd (by omega)) ?_ notEof (by omega)
    intro c' behind isBlock'
    exact ih c' isBlock' (by omega)

/-- With enough fuel a watched run of `parse` is done or blocked. -/
theorem parseWith_ends (m_tokens : List Token) (c : Nat) :
    ∃ fuel, parseWith true fuel m_tokens c ≠ .outOfFuel := by
  refine ⟨2 * m_tokens.length + 3, fun isOut => ?_⟩
  have blocks : BlocksEnd (parse_block true (2 * m_tokens.length + 3)) m_tokens c :=
    fun c' _ isBlock => parse_block_ends _ c' isBlock (by omega)
  have expressions : ExpressionsEnd (parse_expression true (2 * m_tokens.length + 3))
        m_tokens :=
    expressionsEnd (by omega)
  have ends := bodyLoop_ends (fun _ _ => false) expressions
      (2 * m_tokens.length + 3) [] blocks (by omega)
  unfold parseWith at isOut
  rw [isOut] at ends
  exact ends

end Mnn.Llm.Jinja
