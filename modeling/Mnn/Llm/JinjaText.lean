import Mnn.Llm.Ujson

/-!
# The text of JSON values

`dump` of the JSON library, and the two printers of the templates, which sort the
members of an object.  How a double is printed is a parameter.
-/

namespace Mnn.Llm.Ujson

/-! ## The writer of the library -/

def hexDigits : List Byte := text "0123456789ABCDEF"

/-- The entry of `escape`, 0 where there is none. -/
def escape (c : Byte) : Byte :=
  if c = 0x08 then 0x62
  else if c = 0x09 then 0x74
  else if c = 0x0A then 0x6E
  else if c = 0x0C then 0x66
  else if c = 0x0D then 0x72
  else if c < 0x20 then 0x75
  else if c = 0x22 then 0x22
  else if c = 0x5C then 0x5C
  else 0

/-- What is written for a character of a string. -/
def writeChar (c : Byte) : List Byte :=
  if escape c = 0 then
    [c]
  else if escape c = 0x75 then
    [0x5C, 0x75, 0x30, 0x30, hexDigits.getD (c.toNat / 16) 0, hexDigits.getD (c.toNat % 16) 0]
  else
    [0x5C, escape c]

def writeString (s : List Byte) : List Byte := [0x22] ++ s.flatMap writeChar ++ [0x22]

section Dump

variable (printDouble : ℚ → List Byte)

def Number.dump : Number → List Byte
  | integer n _ => text (toString n)
  | double x _ => printDouble x

mutual

def Json.dump : Json → List Byte
  | .null => text "null"
  | .bool b => if b then text "true" else text "false"
  | .number n => n.dump printDouble
  | .string s => writeString s
  | .array elements =>
    text "[" ++ List.intercalate (text ",") (Json.dumpElements elements) ++ text "]"
  | .object members =>
    text "\x7b" ++ List.intercalate (text ",") (Json.dumpMembers members) ++ text "\x7d"

def Json.dumpElements : List Json → List (List Byte)
  | [] => []
  | element :: elements => Json.dump element :: Json.dumpElements elements

def Json.dumpMembers : List (List Byte × Json) → List (List Byte)
  | [] => []
  | (key, value) :: members =>
    (writeString key ++ text ":" ++ Json.dump value) :: Json.dumpMembers members

end

end Dump

end Mnn.Llm.Ujson

namespace Mnn.Llm.Jinja

open Mnn.Llm.Ujson

/-! ## The printers of the templates -/

def get_prio (k : List Byte) : Nat :=
  if k = text "type" then 1
  else if k = text "function" then 2
  else if k = text "name" then 3
  else if k = text "description" then 4
  else if k = text "parameters" then 5
  else if k = text "properties" then 6
  else if k = text "required" then 7
  else if k = text "enum" then 8
  else 100

/-- The order of the keys of an object. -/
def keyLess (a b : List Byte) : Bool :=
  if get_prio a ≠ get_prio b then get_prio a < get_prio b else a < b

/-- `it.key()` of all members, in order. -/
def sortedKeys {α : Type} (members : List (List Byte × α)) : List (List Byte) :=
  (members.map fun member => c_str member.1).insertionSort fun a b => ¬keyLess b a

/-- What was printed for `val.at(key)`, which is null if there is no such member. -/
def printedAt (printed : List (List Byte × List Byte)) (null key : List Byte) : List Byte :=
  ((printed.find? fun member => member.1 == key).map Prod.snd).getD null

section Printers

variable (printDouble : ℚ → List Byte)

mutual

def to_json_string (indent : Int) (level : Nat) : Json → List Byte
  | .null => text "null"
  | .bool b => if b then text "true" else text "false"
  | .number n => n.dump printDouble
  | .string s => writeString s
  | .array elements =>
    let nl := if 0 ≤ indent then text "\n" else []
    let sp := List.replicate ((level + 1) * indent).toNat 0x20
    let sp_closing := List.replicate (level * indent).toNat 0x20
    let sep := if 0 ≤ indent then text "," ++ nl ++ sp else text ", "
    if elements = [] then
      text "[]"
    else
      text "[" ++ nl ++ sp ++ List.intercalate sep (elementStrings indent (level + 1) elements) ++
        nl ++ sp_closing ++ text "]"
  | .object members =>
    let nl := if 0 ≤ indent then text "\n" else []
    let sp := List.replicate ((level + 1) * indent).toNat 0x20
    let sp_closing := List.replicate (level * indent).toNat 0x20
    let sep := if 0 ≤ indent then text "," ++ nl ++ sp else text ", "
    if members = [] then
      text "\x7b\x7d"
    else
      let printed := memberStrings indent (level + 1) members
      text "\x7b" ++ nl ++ sp ++ List.intercalate sep ((sortedKeys members).map fun key =>
          text "\"" ++ key ++ text "\": " ++ printedAt printed (text "null") key) ++
        nl ++ sp_closing ++ text "\x7d"

def elementStrings (indent : Int) (level : Nat) : List Json → List (List Byte)
  | [] => []
  | element :: elements =>
    to_json_string indent level element :: elementStrings indent level elements

def memberStrings (indent : Int) (level : Nat) :
    List (List Byte × Json) → List (List Byte × List Byte)
  | [] => []
  | (key, value) :: members =>
    (key, to_json_string indent level value) :: memberStrings indent level members

end

/-- What is written for a character of a string within quotes. -/
def pythonChar (c : Byte) : List Byte :=
  if c = 0x27 then [0x5C, 0x27]
  else if c = 0x5C then [0x5C, 0x5C]
  else if c = 0x0A then [0x5C, 0x6E]
  else if c = 0x0D then [0x5C, 0x72]
  else [c]

/-- What is written for a character of a key; line ends are not escaped. -/
def pythonKeyChar (c : Byte) : List Byte :=
  if c = 0x27 then [0x5C, 0x27]
  else if c = 0x5C then [0x5C, 0x5C]
  else [c]

/-- `to_python_repr`, of a value and what `to_python_string` gives for it. -/
def to_python_repr (val : Json) (string : List Byte) : List Byte :=
  match val with
  | .string s => [0x27] ++ s.flatMap pythonChar ++ [0x27]
  | _ => string

mutual

def to_python_string : Json → List Byte
  | .null => text "None"
  | .bool b => if b then text "True" else text "False"
  | .number n => n.dump printDouble
  | .string s => s
  | .array elements =>
    text "[" ++ List.intercalate (text ", ") (elementReprs elements) ++ text "]"
  | .object members =>
    let printed := memberReprs members
    text "\x7b" ++ List.intercalate (text ", ") ((sortedKeys members).map fun key =>
        [0x27] ++ key.flatMap pythonKeyChar ++ [0x27] ++ text ": " ++
          printedAt printed (text "None") key) ++
      text "\x7d"

def elementReprs : List Json → List (List Byte)
  | [] => []
  | element :: elements =>
    to_python_repr element (to_python_string element) :: elementReprs elements

def memberReprs : List (List Byte × Json) → List (List Byte × List Byte)
  | [] => []
  | (key, value) :: members =>
    (key, to_python_repr value (to_python_string value)) :: memberReprs members

end

end Printers

end Mnn.Llm.Jinja
