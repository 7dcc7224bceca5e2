import Mnn.Llm.RegexPartition

/-!
# The parser of patterns

`PatternParser` reads a pattern from the front.  It keeps a place in the pattern that
does not go over the end, and every byte is read with a bound for it.  A number
between braces can be too large for `std::stoi`.
-/

namespace Mnn.Regex

open Mnn.Foundation BitFields Utf8

/-- What ends a run in front of its result. -/
inductive Fault
  /-- A read outside of what there is. -/
  | outside
  | out_of_range
  | regex_error
  | outOfFuel
  deriving DecidableEq

/-- The byte of an ASCII character. -/
def chr (c : Char) : Byte := BitVec.ofNat 8 c.toNat

def ascii (s : String) : Text := s.toList.map chr

/-! ## Sets of bytes -/

abbrev CharSet := Byte → Bool

namespace CharSet

def empty : CharSet := fun _ => false

def set (cs : CharSet) (b : Byte) : CharSet := fun b' => b' == b || cs b'

def negate (cs : CharSet) : CharSet := fun b => !cs b

def merge (cs o : CharSet) : CharSet := fun b => cs b || o b

end CharSet

/-- The bytes from one to another. -/
def range (first last : Byte) : List Byte :=
  (List.range' first.toNat (last.toNat + 1 - first.toNat)).map (BitVec.ofNat 8)

/-- The bytes between two of them, whichever is the lower one. -/
def between (b b' : Byte) : List Byte :=
  if b.toNat < b'.toNat then range b b' else range b' b

def cs_letter : CharSet := (range (chr 'A') (chr 'Z') ++ range (chr 'a') (chr 'z')).foldl .set
    (CharSet.empty.set 0x01)

def cs_number : CharSet := (range (chr '0') (chr '9')).foldl .set (CharSet.empty.set 0x02)

def cs_whitespace : CharSet :=
  [0x20, 0x09, 0x0A, 0x0D, 0x0C, 0x0B].foldl .set (CharSet.empty.set 0x03)

def cs_mark : CharSet := CharSet.empty.set 0x05

def cs_punct : CharSet :=
  (ascii "!\"#%&'()*,-./:;?@[\\]_\x7b\x7d").foldl .set (CharSet.empty.set 0x06)

def cs_symbol : CharSet := (ascii "$+<=>^`|~").foldl .set (CharSet.empty.set 0x07)

def cs_dot : CharSet := fun b => b != 0x0A

/-! ## Places in a pattern -/

/-- A place in a pattern, or its end. -/
structure Cursor (pat : Text) where
  pos_ : Nat
  inside : pos_ ≤ pat.length

namespace Cursor

variable {pat : Text} (cursor : Cursor pat)

/-- The bytes from here on. -/
def rest : Text := pat.drop cursor.pos_

theorem length_rest : cursor.rest.length = pat.length - cursor.pos_ := List.length_drop ..

def at_end : Bool := pat.length ≤ cursor.pos_

def peek : Byte :=
  if less : cursor.pos_ < pat.length then pat[cursor.pos_] else 0

def next : Cursor pat :=
  if less : cursor.pos_ < pat.length then ⟨cursor.pos_ + 1, less⟩ else cursor

/-- The next byte is left behind if it is this one. -/
def past (c : Byte) : Cursor pat :=
  if cursor.peek = c then cursor.next else cursor

def read_cp : Nat × Cursor pat :=
  if none : cursor.rest = [] then
    (0, cursor)
  else
    ((utf8_decode cursor.rest).2,
      ⟨cursor.pos_ + (utf8_decode cursor.rest).1, by
        have read := utf8_decode_le none
        have length := cursor.length_rest
        have inside := cursor.inside
        omega⟩)

def is_multibyte : Bool :=
  if less : cursor.pos_ < pat.length then 0x80 ≤ pat[cursor.pos_].toNat else false

/-- Whether there is a dash that is not the last byte of its class. -/
def before_range : Bool :=
  if less : cursor.pos_ + 1 < pat.length then
    cursor.peek == chr '-' && pat[cursor.pos_ + 1] != chr ']'
  else
    false

/-- So many bytes are left behind. -/
def skip (count : Nat) (le : count ≤ cursor.rest.length) : Cursor pat := ⟨cursor.pos_ + count, by
    have length := cursor.length_rest
    have inside := cursor.inside
    omega⟩

/-- The bytes from here on as long as they are of a kind. -/
def readWhile (isOfKind : Byte → Bool) : Text × Cursor pat :=
  (cursor.rest.takeWhile isOfKind, cursor.skip _ (List.takeWhile_sublist isOfKind).length_le)

end Cursor

/-- The number of bytes up to the bracket that closes so many of them. -/
def balanced : Nat → Text → Nat
  | 0, _ => 0
  | _ + 1, [] => 0
  | depth + 1, ch :: rest =>
    if ch = chr '(' then balanced (depth + 2) rest + 1
    else if ch = chr ')' then balanced depth rest + 1
    else balanced (depth + 1) rest + 1

theorem balanced_le (depth : Nat) (rest : Text) : balanced depth rest ≤ rest.length := by
  induction rest generalizing depth with
  | nil => cases depth with | _ => exact Nat.le_refl 0
  | cons ch rest ih =>
    cases depth with
    | zero => exact Nat.zero_le _
    | succ depth =>
      rw [balanced]
      split
      · exact Nat.succ_le_succ (ih _)
      · split
        · exact Nat.succ_le_succ (ih _)
        · exact Nat.succ_le_succ (ih _)

/-- What is read, whether the engine supports it, and the place behind it. -/
structure Parsed (pat : Text) (α : Type) where
  value : α
  supported_ : Bool
  cursor : Cursor pat

/-- Alternatives are read with the letters folded or not. -/
abbrev ParseAlt (pat : Text) := Bool → Cursor pat → Except Fault (Parsed pat (List (List RNode)))

/-! ## Characters and classes -/

def hex_val (h : Byte) : Nat :=
  if (chr '0').toNat ≤ h.toNat ∧ h.toNat ≤ (chr '9').toNat then
    h.toNat - (chr '0').toNat
  else if (chr 'a').toNat ≤ h.toNat ∧ h.toNat ≤ (chr 'f').toNat then
    h.toNat - (chr 'a').toNat + 10
  else if (chr 'A').toNat ≤ h.toNat ∧ h.toNat ≤ (chr 'F').toNat then
    h.toNat - (chr 'A').toNat + 10
  else
    0

def prop_charset : Text → CharSet
  | c :: _ =>
    if c = chr 'L' then cs_letter
    else if c = chr 'N' then cs_number
    else if c = chr 'M' then cs_mark
    else if c = chr 'P' then cs_punct
    else if c = chr 'S' then cs_symbol
    else if c = chr 'Z' then cs_whitespace
    else .empty
  | [] => .empty

section Parser

variable (get_category : Nat → Category) {pat : Text} (icase_ : Bool)

def add_literal (cs : CharSet) (c : Byte) : CharSet :=
  if icase_ ∧ (chr 'a').toNat ≤ c.toNat ∧ c.toNat ≤ (chr 'z').toNat then
    (cs.set c).set (c - 32)
  else if icase_ ∧ (chr 'A').toNat ≤ c.toNat ∧ c.toNat ≤ (chr 'Z').toNat then
    (cs.set c).set (c + 32)
  else
    cs.set c

/-- The set of an escape of one letter. -/
def escapeSet (c : Byte) : Option CharSet :=
  if c = chr 's' then some cs_whitespace
  else if c = chr 'S' then some cs_whitespace.negate
  else if c = chr 'd' then some cs_number
  else if c = chr 'D' then some cs_number.negate
  else if c = chr 'w' then some ((cs_letter.merge cs_number).set (chr '_'))
  else if c = chr 'W' then some ((cs_letter.merge cs_number).set (chr '_')).negate
  else if c = chr 'r' then some (CharSet.empty.set 0x0D)
  else if c = chr 'n' then some (CharSet.empty.set 0x0A)
  else if c = chr 't' then some (CharSet.empty.set 0x09)
  else if c = chr 'f' then some (CharSet.empty.set 0x0C)
  else if c = chr 'v' then some (CharSet.empty.set 0x0B)
  else none

def add_escape_to_cs (cs : CharSet) (cursor : Cursor pat) : Parsed pat CharSet :=
  let c := cursor.next.peek
  let cursor := cursor.next.next
  if c = chr 'p' ∨ c = chr 'P' then
    if cursor.peek = chr '{' then
      let prop := cursor.next.readWhile (· != chr '}')
      let pcs := prop_charset prop.1
      ⟨cs.merge (if c = chr 'P' then pcs.negate else pcs), true, prop.2.past (chr '}')⟩
    else
      ⟨cs, true, cursor⟩
  else if c = chr 'x' then
    if cursor.pos_ + 1 < pat.length then
      ⟨cs.set (BitVec.ofNat 8 (hex_val cursor.peek * 16 + hex_val cursor.next.peek)),
        true, cursor.next.next⟩
    else
      ⟨cs, true, cursor⟩
  else
    match escapeSet c with
    | some t => ⟨cs.merge t, true, cursor⟩
    | none =>
      -- assertions and references back
      ⟨add_literal icase_ cs c, !(ascii "bBAZ123456789").contains c, cursor⟩

/-- One character of a class, or a range of them. -/
def classItem (cs : CharSet) (cursor : Cursor pat) : CharSet × Cursor pat :=
  if cursor.is_multibyte then
    let cp := cursor.read_cp
    let fb := cp_to_folded get_category cp.1
    if cp.2.before_range then
      let cursor := cp.2.next
      let end_cp :=
        if cursor.is_multibyte then cursor.read_cp else (cursor.peek.toNat, cursor.next)
      ((between fb (cp_to_folded get_category end_cp.1)).foldl .set cs, end_cp.2)
    else
      (cs.set fb, cp.2)
  else
    let c := cursor.peek
    let cursor := cursor.next
    if cursor.before_range then
      let cursor := cursor.next
      if cursor.peek = 0x5C then
        let cursor := cursor.next
        let end_c :=
          if cursor.peek = chr 'n' then 0x0A
          else if cursor.peek = chr 'r' then 0x0D
          else if cursor.peek = chr 't' then 0x09
          else cursor.peek
        ((range c end_c).foldl (add_literal icase_) cs, cursor.next)
      else if cursor.is_multibyte then
        let end_cp := cursor.read_cp
        ((between (cp_to_folded get_category c.toNat)
          (cp_to_folded get_category end_cp.1)).foldl .set cs, end_cp.2)
      else
        ((range c cursor.peek).foldl (add_literal icase_) cs, cursor.next)
    else
      (add_literal icase_ cs c, cursor)

/-- The loop of `parse_class`. -/
def classLoop : Nat → CharSet → Bool → Cursor pat → Except Fault (Parsed pat CharSet)
  | 0, _, _, _ => .error .outOfFuel
  | fuel + 1, cs, supported_, cursor =>
    if cursor.at_end ∨ cursor.peek = chr ']' then
      .ok ⟨cs, supported_, cursor⟩
    else if cursor.peek = 0x5C then
      let escape := add_escape_to_cs icase_ cs cursor
      classLoop fuel escape.value (supported_ && escape.supported_) escape.cursor
    else
      let item := classItem get_category icase_ cs cursor
      classLoop fuel item.1 supported_ item.2

def parse_class (cursor : Cursor pat) : Except Fault (Parsed pat RNode) := do
  let cursor := cursor.next
  let negated := cursor.peek = chr '^'
  let cursor := cursor.past (chr '^')
  -- a bracket that stands first does not close
  let cs := if cursor.peek = chr ']' then CharSet.empty.set (chr ']') else .empty
  let read ← classLoop get_category icase_ (pat.length + 1) cs true
    (cursor.past (chr ']'))
  pure ⟨.cs (if negated then read.value.negate else read.value) 1 (some 1),
    read.supported_, read.cursor.past (chr ']')⟩

/-! ## Groups, atoms and quantifiers -/

def parse_group (parse_alt : ParseAlt pat) (cursor : Cursor pat) :
    Except Fault (Parsed pat RNode) :=
  let cursor := cursor.next
  if cursor.peek = chr '?' then
    let cursor := cursor.next
    if cursor.peek = chr '!' then do
      let alts ← parse_alt icase_ cursor.next
      pure ⟨.neg_la alts.value 1 (some 1), alts.supported_, alts.cursor.past (chr ')')⟩
    else if cursor.peek = chr '=' ∨ cursor.peek = chr '<' then
      pure ⟨.cs CharSet.empty 1 (some 1), false, cursor.skip _ (balanced_le 1 cursor.rest)⟩
    else do
      let flags := cursor.readWhile fun c => c != chr ':' && c != chr ')'
      let alts ←
        parse_alt (icase_ || flags.1.contains (chr 'i')) (flags.2.past (chr ':'))
      pure ⟨.grp alts.value 1 (some 1), alts.supported_, alts.cursor.past (chr ')')⟩
  else do
    let alts ← parse_alt icase_ cursor
    pure ⟨.grp alts.value 1 (some 1), alts.supported_, alts.cursor.past (chr ')')⟩

def parse_atom (parse_alt : ParseAlt pat) (cursor : Cursor pat) : Except Fault (Parsed pat RNode) :=
  let c := cursor.peek
  if c = chr '(' then
    parse_group icase_ parse_alt cursor
  else if c = chr '[' then
    parse_class get_category icase_ cursor
  else if c = 0x5C then
    let escape := add_escape_to_cs icase_ CharSet.empty cursor
    pure ⟨.cs escape.value 1 (some 1), escape.supported_, escape.cursor⟩
  else if c = chr '.' then
    pure ⟨.cs cs_dot 1 (some 1), true, cursor.next⟩
  else if cursor.is_multibyte then
    let cp := cursor.read_cp
    pure ⟨.cs (CharSet.empty.set (cp_to_folded get_category cp.1)) 1 (some 1), true, cp.2⟩
  else
    pure ⟨.cs (add_literal icase_ CharSet.empty c) 1 (some 1), true, cursor.next⟩

def isDigit (c : Byte) : Bool := (chr '0').toNat ≤ c.toNat && c.toNat ≤ (chr '9').toNat

/-- The number that digits stand for. -/
def decimal (digits : Text) : Nat :=
  digits.foldl (fun value c => value * 10 + (c.toNat - (chr '0').toNat)) 0

def INT_MAX : Nat := 2 ^ 31 - 1

def stoi (digits : Text) : Except Fault Nat :=
  if decimal digits ≤ INT_MAX then pure (decimal digits) else throw .out_of_range

/-- A number, or what stands for one that is missing. -/
def numberOr {α : Type} (missing : α) (next : Nat → α) (digits : Text) : Except Fault α :=
  if digits = [] then pure missing else next <$> stoi digits

def RNode.quantify (qmin : Nat) (qmax : Option Nat) : RNode → RNode
  | .cs test _ _ => .cs test qmin qmax
  | .grp alts _ _ => .grp alts qmin qmax
  | .neg_la alts _ _ => .neg_la alts qmin qmax

def parse_quantifier (node : RNode) (cursor : Cursor pat) : Except Fault (RNode × Cursor pat) :=
  if cursor.at_end then
    pure (node, cursor)
  else if cursor.peek = chr '+' then
    pure (node.quantify 1 none, cursor.next.past (chr '?'))
  else if cursor.peek = chr '*' then
    pure (node.quantify 0 none, cursor.next.past (chr '?'))
  else if cursor.peek = chr '?' then
    pure (node.quantify 0 (some 1), cursor.next.past (chr '?'))
  else if cursor.peek = chr '{' then do
    let num := cursor.next.readWhile isDigit
    let qmin ← numberOr 0 id num.1
    if num.2.peek = chr ',' then
      let num2 := num.2.next.readWhile isDigit
      let qmax ← numberOr none some num2.1
      pure (node.quantify qmin qmax, (num2.2.past (chr '}')).past (chr '?'))
    else
      pure (node.quantify qmin (some qmin), (num.2.past (chr '}')).past (chr '?'))
  else
    pure (node, cursor)

/-! ## Branches -/

mutual

def parse_alt : Nat → ParseAlt pat
  | 0, _, _ => throw .outOfFuel
  | fuel + 1, icase_, cursor => do
      let branch ← parse_branch fuel icase_ cursor
      if branch.cursor.peek = chr '|' then
        let alts ← parse_alt fuel icase_ branch.cursor.next
        pure ⟨branch.value :: alts.value, branch.supported_ && alts.supported_, alts.cursor⟩
      else
        pure ⟨[branch.value], branch.supported_, branch.cursor⟩

def parse_branch : Nat → Bool → Cursor pat → Except Fault (Parsed pat (List RNode))
  | 0, _, _ => throw .outOfFuel
  | fuel + 1, icase_, cursor =>
    if cursor.at_end ∨ cursor.peek = chr '|' ∨ cursor.peek = chr ')' then
      pure ⟨[], true, cursor⟩
    else do
      let atom ← parse_atom get_category icase_ (parse_alt fuel) cursor
      let node ← parse_quantifier atom.value atom.cursor
      let nodes ← parse_branch fuel icase_ node.2
      pure ⟨node.1 :: nodes.value, atom.supported_ && nodes.supported_, nodes.cursor⟩

end

/-- A branch that is not supported is left out. -/
def Parsed.keep (branch : Parsed pat (List RNode)) (alts : List (List RNode)) : List (List RNode) :=
  if branch.supported_ then branch.value :: alts else alts

/-- The branches that are supported, from here on. -/
def parseFrom : Nat → Cursor pat → Except Fault (List (List RNode))
  | 0, _ => throw .outOfFuel
  | fuel + 1, cursor => do
      let branch ← parse_branch get_category (2 * pat.length + 1) false cursor
      if branch.cursor.peek = chr '|' then
        let alts ← parseFrom fuel branch.cursor.next
        pure (branch.keep alts)
      else
        pure (branch.keep [])

def parse (pattern : Text) : Except Fault (List (List RNode)) :=
  parseFrom get_category (pattern.length + 1) (⟨0, Nat.zero_le _⟩ : Cursor pattern)

def kGPT2Pattern : Text :=
  ascii "'s|'t|'re|'ve|'m|'ll|'d| ?\\p\x7bL\x7d+| ?\\p\x7bN\x7d+|" ++
    ascii " ?[^\\s\\p\x7bL\x7d\\p\x7bN\x7d]+|\\s+(?!\\S)|\\s+"

def get_compiled (pattern : Text) : Except Fault (List (List RNode)) := do
  let branches ← parse get_category pattern
  if branches.isEmpty then parse get_category kGPT2Pattern else pure branches

end Parser

end Mnn.Regex
