import Monkey.Number.Integer
import Monkey.Value.Fault

/-!
# Operators on values

Operators are given by their text, and a text that names no operator on the
operands is a fault. Integers and floating-point numbers do not mix. Any two
values can be compared by `==` and `!=`. Indexing never fails on a position or
a key that is missing: it gives null.
-/

namespace Monkey.Value

/-- The integer `z`, or overflow. -/
def ofInt (z : Int) : Value :=
  match Integer.narrow? z with
  | some n => integer n
  | none => Fault.integerOverflow.toValue

/-- An operator before its operand. -/
def unary (operator : String) (operand : Value) : Value :=
  match operator with
  | "!" => boolean (!operand.isTruthy)
  | "-" =>
    match operand with
    | integer n => ofInt (-n.toInt)
    | float x => float (-x)
    | _ => (Fault.unknownUnary operator operand.kind).toValue
  | _ => (Fault.unknownUnary operator operand.kind).toValue

/-- An operator between integers. Division drops the fraction. -/
def integerBinary (operator : String) (a b : Int64) : Value :=
  match operator with
  | "+" => ofInt (a.toInt + b.toInt)
  | "-" => ofInt (a.toInt - b.toInt)
  | "*" => ofInt (a.toInt * b.toInt)
  | "/" => if b = 0 then Fault.divisionByZero.toValue else ofInt (a.toInt.tdiv b.toInt)
  | "<" => boolean (a < b)
  | ">" => boolean (b < a)
  | "==" => boolean (a == b)
  | "!=" => boolean (a != b)
  | _ => (Fault.unknownBinary .integer operator .integer).toValue

/-- An operator between floating-point numbers. Zero of either sign does not divide. -/
def floatBinary (operator : String) (a b : Float) : Value :=
  match operator with
  | "+" => float (a + b)
  | "-" => float (a - b)
  | "*" => float (a * b)
  | "/" => if b == 0 then Fault.divisionByZero.toValue else float (a / b)
  | "<" => boolean (a < b)
  | ">" => boolean (b < a)
  | "==" => boolean (a == b)
  | "!=" => boolean (a != b)
  | _ => (Fault.unknownBinary .float operator .float).toValue

/-- An operator between strings. -/
def stringBinary (operator : String) (a b : String) : Value :=
  match operator with
  | "+" => string (a ++ b)
  | "==" => boolean (a == b)
  | "!=" => boolean (a != b)
  | _ => (Fault.unknownBinary .string operator .string).toValue

/-- An operator between any other values. -/
def otherBinary (operator : String) (a b : Value) : Value :=
  match operator with
  | "==" => boolean (a.equal b)
  | "!=" => boolean (!a.equal b)
  | _ =>
    if a.kind = b.kind then (Fault.unknownBinary a.kind operator b.kind).toValue
    else (Fault.typeMismatch a.kind operator b.kind).toValue

/-- An operator between its operands. -/
def binary (operator : String) (a b : Value) : Value :=
  match a, b with
  | integer m, integer n => integerBinary operator m n
  | float x, float y => floatBinary operator x y
  | string s, string t => stringBinary operator s t
  | a, b => otherBinary operator a b

/-- The element of an array at a position, null outside the array. -/
def elementAt (elements : List Value) (position : Int64) : Value :=
  if position < 0 then null else (elements[position.toInt.toNat]?).getD null

/-- The value filed under a key, null if there is none. -/
def filedUnder (entries : List (HashKey × Value × Value)) (key : Value) : Value :=
  match key.hashKey? with
  | some filed => ((HashTable.find? filed entries).map (·.2)).getD null
  | none => (Fault.notHashable key.kind).toValue

/-- A value in brackets after a value. -/
def index (target key : Value) : Value :=
  match target, key with
  | array elements, integer position => elementAt elements position
  | hash entries, key => filedUnder entries key
  | target, _ => (Fault.notIndexable target.kind).toValue

end Monkey.Value
