import Mathlib

/-!
# The lexer of the Jinja templates

The cursor is modelled by what is behind it.  Characters stand for the bytes of
the template, and the classes of characters are those of the C locale.  Braces
in strings are written as their codes.
-/

variable {input : List Char}

namespace Mnn.Llm.Jinja

open List
open Option
open Nat

inductive TokenType
  | Text
  | ExpressionStart
  | ExpressionEnd
  | BlockStart
  | BlockEnd
  | Identifier
  | String
  | Number
  | Operator
  | Punctuation
  | Eof
  deriving DecidableEq, Repr

structure Token where
  type : TokenType
  value : String
  deriving DecidableEq, Repr

/-- The token behind all others. -/
def Token.eof : Token := { type := .Eof, value := "" }

namespace Lexer

inductive State
  | Text
  | Expression
  | Block
  deriving DecidableEq, Repr

def isspace (c : Char) : Bool := c == ' ' || ('\t'.toNat ≤ c.toNat && c.toNat ≤ '\r'.toNat)

/-- The characters that trimming removes. -/
def isTrimmed (c : Char) : Bool := c == ' ' || c == '\n' || c == '\r' || c == '\t'

inductive TagKind
  | expr
  | block
  | comment
  deriving DecidableEq, Repr

/-- The text in front of the nearest tag, the tag, and what is behind it. -/
def findTag : List Char → List Char × Option (TagKind × List Char)
  | '{' :: '{' :: rest => ([], some (.expr, rest))
  | '{' :: '%' :: rest => ([], some (.block, rest))
  | '{' :: '#' :: rest => ([], some (.comment, rest))
  | c :: rest => (c :: (findTag rest).1, (findTag rest).2)
  | [] => ([], none)

def trimEnd (text : List Char) : List Char := (text.reverse.dropWhile isTrimmed).reverse

/-- `lstrip_blocks`: indentation in front of a block goes. -/
def stripIndentation (text : List Char) : List Char :=
  let indentation := text.reverse.takeWhile (· != '\n')
  if indentation.all fun c => c == ' ' || c == '\t' then
    (text.reverse.drop indentation.length).reverse
  else
    text

/-- What is behind a comment, and whether it trims the text. -/
def skipComment : List Char → List Char × Bool
  | '#' :: '}' :: rest => (rest, false)
  | '-' :: '#' :: '}' :: rest => (rest, true)
  | _ :: rest => skipComment rest
  | [] => ([], false)

/-- The character that an escape stands for. -/
def unescape : Char → Char
  | 'n' => '\n'
  | 'r' => '\r'
  | 't' => '\t'
  | 'b' => '\x08'
  | 'f' => '\x0c'
  | c => c

/-- `read_string`, behind the opening quote. -/
def read_string (quote : Char) : List Char → List Char × List Char
  | [] => ([], [])
  | '\\' :: next :: rest =>
    if quote = '\\' then
      ([], next :: rest)
    else
      let (val, rest) := read_string quote rest
      (unescape next :: val, rest)
  | c :: rest =>
    if c = quote then
      ([], rest)
    else
      let (val, rest) := read_string quote rest
      (c :: val, rest)

def isPunctuation (c : Char) : Bool :=
  -- `strchr` also finds the end of the string.
  "[]()\x7b\x7d:.,".toList.contains c || c == '\x00'

/-- An operator, and what is behind it. -/
def read_operator (c : Char) : List Char → String × List Char
  | '=' :: rest =>
    if c == '=' || c == '!' || c == '<' || c == '>' then
      (String.ofList [c, '='], rest)
    else
      (String.ofList [c], '=' :: rest)
  | rest => (String.ofList [c], rest)

/-- A token that is no end tag, and what is behind it. -/
def read_token (c : Char) (rest : List Char) : Token × List Char :=
  if c.isAlpha || c == '_' then
    let word := (c :: rest).takeWhile fun c => c.isAlphanum || c == '_'
    (⟨.Identifier, String.ofList word⟩, (c :: rest).dropWhile fun c => c.isAlphanum || c == '_')
  else if c.isDigit then
    (⟨.Number, String.ofList ((c :: rest).takeWhile Char.isDigit)⟩,
      (c :: rest).dropWhile Char.isDigit)
  else if c == '\'' || c == '"' then
    let (val, rest) := read_string c rest
    (⟨.String, String.ofList val⟩, rest)
  else if isPunctuation c then
    (⟨.Punctuation, String.ofList [c]⟩, rest)
  else
    let (op, rest) := read_operator c rest
    (⟨.Operator, op⟩, rest)

/-- The token of a text that is not empty. -/
def textToken (text : List Char) : List Token :=
  if text.isEmpty then [] else [⟨.Text, String.ofList text⟩]

/-- A step of the loop in the state of text, up to the next tag. -/
def textStep (trim_next : Bool) (input : List Char) : List Token × State × Bool × List Char :=
  let text := (findTag input).1
  let text := if trim_next then text.dropWhile isTrimmed else text
  match (findTag input).2 with
  | none => (textToken text, .Text, false, [])
  | some (kind, rest) =>
    let trim_prev := rest.head? == some '-'
    let text :=
      if trim_prev then
        trimEnd text
      else if kind == .block then
        stripIndentation text
      else
        text
    let rest := if trim_prev then rest.drop 1 else rest
    match kind with
    | .expr =>
      (textToken text ++ [⟨.ExpressionStart, "\x7b\x7b"⟩], .Expression, false, rest)
    | .block =>
      (textToken text ++ [⟨.BlockStart, "\x7b%"⟩], .Block, false, rest)
    | .comment =>
      (textToken text, .Text, (skipComment rest).2, (skipComment rest).1)

/-- A step of the loop in an expression or a block, behind the white space. -/
def tagStep (state : State) : List Char → List Token × State × Bool × List Char
  | '-' :: '}' :: '}' :: rest =>
    if state = .Expression then
      ([⟨.ExpressionEnd, "\x7d\x7d"⟩], .Text, true, rest)
    else
      ([⟨.Operator, "-"⟩], state, false, '}' :: '}' :: rest)
  | '-' :: '%' :: '}' :: rest =>
    if state = .Block then
      ([⟨.BlockEnd, "%\x7d"⟩], .Text, true, rest)
    else
      ([⟨.Operator, "-"⟩], state, false, '%' :: '}' :: rest)
  | '}' :: '}' :: rest =>
    if state = .Expression then
      ([⟨.ExpressionEnd, "\x7d\x7d"⟩], .Text, false, rest)
    else
      ([⟨.Punctuation, "\x7d"⟩], state, false, '}' :: rest)
  | '%' :: '}' :: rest =>
    if state = .Block then
      -- `trim_blocks`: the first newline goes.
      ([⟨.BlockEnd, "%\x7d"⟩], .Text, false,
        if rest.head? = some '\n' then rest.drop 1 else rest)
    else
      ([⟨.Operator, "%"⟩], state, false, '}' :: rest)
  | c :: rest =>
    let (token, rest) := read_token c rest
    ([token], state, false, rest)
  | [] => ([], state, false, [])

/-- The loop of `tokenize`, in a state and behind the tokens before. -/
def tokenizeFrom : Nat → State → Bool → List Char → Option (List Token)
  | 0, _, _, _ => none
  | fuel + 1, state, trim_next, input =>
    if input.isEmpty then
      some [Token.eof]
    else if state = .Text then
      let (tokens, state, trim_next, rest) := textStep trim_next input
      (tokenizeFrom fuel state trim_next rest).map (tokens ++ ·)
    else
      let input := input.dropWhile isspace
      if input.isEmpty then
        some [Token.eof]
      else
        let (tokens, state, trim_next', rest) := tagStep state input
        (tokenizeFrom fuel state (trim_next || trim_next') rest).map (tokens ++ ·)

def tokenize (input : List Char) : Option (List Token) :=
  tokenizeFrom (input.length + 1) .Text false input

/-! ## Every step takes characters -/

theorem lt_length_cons_cons {α : Type} (first second : α) (rest : List α) :
    rest.length < (first :: second :: rest).length :=
  lt_succ_of_lt (lt_succ_self _)

theorem findTag_length {kind : TagKind} {rest : List Char}
    (found : (findTag input).2 = some (kind, rest)) :
    rest.length < input.length := by
  fun_induction findTag input with
  | case1 behind =>
    obtain ⟨-, rfl⟩ := Prod.mk.inj (some.inj found)
    exact lt_length_cons_cons ..
  | case2 behind =>
    obtain ⟨-, rfl⟩ := Prod.mk.inj (some.inj found)
    exact lt_length_cons_cons ..
  | case3 behind =>
    obtain ⟨-, rfl⟩ := Prod.mk.inj (some.inj found)
    exact lt_length_cons_cons ..
  | case4 c behind _ _ _ ih =>
    exact lt_succ_of_lt (ih found)
  | case5 => nomatch found

theorem skipComment_length (input : List Char) : (skipComment input).1.length ≤ input.length := by
  fun_induction skipComment input with
  | case1 rest => exact Nat.le_of_lt (lt_length_cons_cons ..)
  | case2 rest =>
    exact Nat.le_succ_of_le (Nat.le_of_lt (lt_length_cons_cons ..))
  | case3 c rest _ _ ih => exact le_succ_of_le ih
  | case4 => exact Nat.le_refl _

theorem read_string_length (quote : Char) (input : List Char) :
    (read_string quote input).2.length ≤ input.length := by
  fun_induction read_string quote input with
  | case1 => exact Nat.le_refl _
  | case2 next rest isQuote => exact le_succ _
  | case3 next rest isOther val behind isRest ih =>
    rw [isRest] at ih
    exact le_succ_of_le (le_succ_of_le ih)
  | case4 rest => exact le_succ _
  | case5 c rest isOther _ val behind isRest ih =>
    rw [isRest] at ih
    exact le_succ_of_le ih

theorem read_operator_length (c : Char) (input : List Char) :
    (read_operator c input).2.length ≤ input.length := by
  unfold read_operator
  split
  · split
    · exact le_succ _
    · exact Nat.le_refl _
  · exact Nat.le_refl _

theorem dropWhile_cons_length {test : Char → Bool} {c : Char} (isFirst : test c = true)
    (rest : List Char) :
    ((c :: rest).dropWhile test).length ≤ rest.length := by
  rw [dropWhile_cons_of_pos isFirst]
  exact (dropWhile_suffix test).length_le

theorem read_token_length (c : Char) (rest : List Char) :
    (read_token c rest).2.length ≤ rest.length := by
  unfold read_token
  split
  · next isWord =>
    refine @dropWhile_cons_length (fun c => c.isAlphanum || c == '_') c ?_ rest
    rw [Bool.or_eq_true] at isWord ⊢
    rcases isWord with isAlpha | isLine
    · left
      rw [Char.isAlphanum, isAlpha, Bool.true_or]
    · exact Or.inr isLine
  · split
    · next isDigit => exact dropWhile_cons_length isDigit rest
    · split
      · exact read_string_length c rest
      · split
        · exact Nat.le_refl _
        · exact read_operator_length c rest

theorem textStep_length (trim_next : Bool) (notEmpty : input ≠ []) :
    (textStep trim_next input).2.2.2.length < input.length := by
  unfold textStep
  simp only
  cases found : (findTag input).2 with
  | none => exact length_pos_iff.mpr notEmpty
  | some tag =>
    rcases tag with ⟨kind, rest⟩
    have shorter := findTag_length found
    have trimmed (test : Bool) : (if test then rest.drop 1 else rest).length ≤ rest.length := by
      split
      · rw [length_drop]
        exact sub_le ..
      · exact Nat.le_refl _
    cases kind with
    | expr => exact Nat.lt_of_le_of_lt (trimmed _) shorter
    | block => exact Nat.lt_of_le_of_lt (trimmed _) shorter
    | comment =>
      refine Nat.lt_of_le_of_lt (skipComment_length _) ?_
      exact Nat.lt_of_le_of_lt (trimmed _) shorter

theorem tagStep_length (state : State) (notEmpty : input ≠ []) :
    (tagStep state input).2.2.2.length < input.length := by
  unfold tagStep
  split
  · split
    · exact lt_succ_of_lt (lt_length_cons_cons ..)
    · exact lt_succ_self _
  · split
    · exact lt_succ_of_lt (lt_length_cons_cons ..)
    · exact lt_succ_self _
  · split
    · exact lt_length_cons_cons ..
    · exact lt_succ_self _
  · next rest =>
    split
    · refine Nat.lt_of_le_of_lt ?_ (lt_length_cons_cons '%' '}' rest)
      simp only
      split
      · rw [length_drop]
        exact sub_le ..
      · exact Nat.le_refl _
    · exact lt_succ_self _
  · exact lt_succ_of_le (read_token_length _ _)
  · exact absurd rfl notEmpty

theorem tokenizeFrom_isSome (fuel : Nat) (state : State) (trim_next : Bool) (input : List Char)
    (enough : input.length < fuel) :
    (tokenizeFrom fuel state trim_next input).isSome = true := by
  induction fuel generalizing state trim_next input with
  | zero => cases enough
  | succ fuel ih =>
    rw [tokenizeFrom]
    by_cases isEmpty : input.isEmpty = true
    · rw [if_pos isEmpty]
      rfl
    · rw [if_neg isEmpty]
      have notEmpty : input ≠ [] := fun same =>
        isEmpty (isEmpty_iff.mpr same)
      by_cases isText : state = .Text
      · rw [if_pos isText, isSome_map]
        exact ih _ _ _ (Nat.lt_of_lt_of_le (textStep_length trim_next notEmpty)
            (le_of_lt_succ enough))
      · rw [if_neg isText]
        simp only
        by_cases isEmpty : (input.dropWhile isspace).isEmpty = true
        · rw [if_pos isEmpty]
          rfl
        · rw [if_neg isEmpty, isSome_map]
          have notEmpty : input.dropWhile isspace ≠ [] := fun same =>
            isEmpty (isEmpty_iff.mpr same)
          have shorter := tagStep_length state notEmpty
          have suffix := (dropWhile_suffix isspace (l := input)).length_le
          exact ih _ _ _ (Nat.lt_of_lt_of_le shorter
              (Nat.le_trans suffix (Nat.le_of_lt_succ enough)))

theorem tokenize_isSome (input : List Char) : ∃ tokens, tokenize input = some tokens :=
  isSome_iff_exists.mp (tokenizeFrom_isSome _ .Text false input (lt_succ_self _))

end Lexer

end Mnn.Llm.Jinja
