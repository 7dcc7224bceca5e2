import Mnn.Foundation.BinaryRounding
import Mnn.Foundation.Comparisons
import Mnn.Llm.Trie

/-!
# JSON values

A value of the wrapper around RapidJSON.  Numbers are kept as signed or unsigned
integers of 64 bits, or as doubles; strings have a length, and are read up to
their first NUL where the source asks for a C string.  The source's copies share
the value that they copy; here a value is a value.
-/

namespace Mnn.Llm.Ujson

open Mnn.Foundation.BinaryRounding
open Mnn.Foundation.Comparisons

/-! ## Values -/

def kMinInt64 : Int := -2 ^ 63

def kMaxInt64 : Int := 2 ^ 63 - 1

def kMaxUint64 : Int := 2 ^ 64 - 1

/-- A finite number of 53 binary digits. -/
def IsDouble (x : ℚ) : Prop := ∃ m e : Int, |m| < 2 ^ 53 ∧ -1074 ≤ e ∧ e ≤ 971 ∧ x = m * 2 ^ e

inductive Number
  | integer (value : Int) (inside : kMinInt64 ≤ value ∧ value ≤ kMaxUint64)
  | double (value : ℚ) (isDouble : IsDouble value)
  deriving DecidableEq

inductive Json
  | null
  | bool (b : Bool)
  | number (n : Number)
  | string (s : List Byte)
  | array (elements : List Json)
  | object (members : List (List Byte × Json))

/-- `c_str()`, as a function that takes a C string sees it. -/
def c_str (s : List Byte) : List Byte := s.takeWhile (· != 0)

/-- The place of `GetType()` in `rapidjson::Type`. -/
def Json.GetType : Json → Nat
  | null => 0
  | bool false => 1
  | bool true => 2
  | object _ => 3
  | array _ => 4
  | string _ => 5
  | number _ => 6

/-! ## Reading -/

/-- The bytes of a text of the source. -/
def text (s : String) : List Byte := s.toUTF8.data.toList

/-- `(*m_val)[key.c_str()]`, if there is such a member. -/
def Json.find (key : List Byte) : Json → Option Json
  | object members => (members.find? fun member => member.1 == c_str key).map Prod.snd
  | _ => none

def Json.contains (json : Json) (key : List Byte) : Bool := (json.find key).isSome

/-- `json[key]`, which is null if there is no such member. -/
def Json.item (json : Json) (key : List Byte) : Json := (json.find key).getD .null

/-- `get<std::string>()` -/
def Json.getString : Json → List Byte
  | string s => s
  | _ => []

/-- `get<long>()`; of other numbers than these, it is an assertion that fails. -/
def Json.getLong : Json → Option Int
  | number (.integer n _) => if n ≤ kMaxInt64 then some n else none
  | number (.double _ _) => none
  | _ => some 0

/-- `is_number_integer()`; larger integers are unsigned. -/
def Json.is_number_integer : Json → Bool
  | number (.integer n _) => n ≤ kMaxInt64
  | _ => false

def Json.is_null : Json → Bool
  | null => true
  | _ => false

/-! ## Comparison -/

/-- The value that `(double)n` has. -/
def toDouble (n : Int) : ℚ := roundSigned 53 (n : ℚ)

/-- The number as a double. -/
def Number.asDouble : Number → ℚ
  | integer n _ => toDouble n
  | double x _ => x

/-- `IsInt64() ? GetInt64() : (int64_t)GetUint64()` -/
def toInt64 (n : Int) : Int :=
  if n ≤ kMaxInt64 then n else n - 2 ^ 64

def compareNumbers : Number → Number → Int
  | .integer l _, .integer r _ => threeWay (toInt64 l) (toInt64 r)
  | lhs, rhs => threeWay lhs.asDouble rhs.asDouble

/-- The sign of `strcmp`; a string ends with a NUL, at the latest behind its
last byte. -/
def strcmp : List Byte → List Byte → Int
  | [], [] => 0
  | [], r :: _ => if r = 0 then 0 else -1
  | l :: _, [] => if l = 0 then 0 else 1
  | l :: lhs, r :: rhs =>
    if l = r then
      if l = 0 then 0 else strcmp lhs rhs
    else
      threeWay l.toNat r.toNat

mutual

def Json.compare (lhs rhs : Json) : Int :=
  if lhs.GetType ≠ rhs.GetType then
    if lhs.GetType < rhs.GetType then -1 else 1
  else
    match lhs, rhs with
    | .bool l, .bool r => if l = r then 0 else if l then 1 else -1
    | .number l, .number r => compareNumbers l r
    | .string l, .string r => strcmp l r
    | .array l, .array r =>
      if l.length ≠ r.length then
        if l.length < r.length then -1 else 1
      else
        Json.compareElements l r
    | .object l, .object r =>
      if l.length ≠ r.length then
        if l.length < r.length then -1 else 1
      else
        0
    | _, _ => 0

/-- The loop over the elements of two arrays. -/
def Json.compareElements : List Json → List Json → Int
  | l :: lhs, r :: rhs =>
    let c := Json.compare l r
    if c ≠ 0 then c else Json.compareElements lhs rhs
  | _, _ => 0

end

end Mnn.Llm.Ujson
