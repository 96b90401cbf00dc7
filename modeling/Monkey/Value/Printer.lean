import Monkey.Number.Binary64
import Monkey.Tree.Printer
import Monkey.Value

/-!
# Texts of values

`Value.render` is the text that programs print. Floating-point numbers have six
decimal places, strings stand without quotes, a value on its way out of a
function is shown as itself, and a function as its source text.

`Value.outline` lists a value and what it holds, one line each, with no nesting
and nothing rounded.
-/

namespace Monkey

/-- Source text of a function. -/
def Closure.render (f : Closure) : String :=
  "fn" ++ Ident.renderParameters f.parameters ++ " " ++ f.body.render

/-- Decimal places of a floating-point number in a text. -/
def Value.places : Nat := 6

namespace Value

mutual

/-- Text of a value. -/
def render : Value → String
  | integer n => toString n.toInt
  | float x => Binary64.fixed places x
  | boolean b => if b then "true" else "false"
  | string s => s
  | null => "null"
  | returned v => v.render
  | error message => "ERROR: " ++ message
  | function f => f.render
  | native f => "builtin function " ++ f.name
  | array elements => "[" ++ commaSeparated (renderAll elements) ++ "]"
  | hash entries => "\x7b" ++ commaSeparated (renderEntries entries) ++ "\x7d"
termination_by structural v => v

/-- Texts of some values. -/
def renderAll : List Value → List String
  | [] => []
  | v :: vs => v.render :: renderAll vs
termination_by structural vs => vs

/-- Texts of the entries of a hash, each with a colon. -/
def renderEntries : List (HashKey × Value × Value) → List String
  | [] => []
  | (_, key, value) :: rest => (key.render ++ ": " ++ value.render) :: renderEntries rest
termination_by structural es => es

end

/-- The bits of a floating-point number, the same for every NaN. -/
def floatBits (x : Float) : String :=
  if x.isNaN then "nan" else Binary64.hex x

mutual

/-- Puts the lines of a value in front of `rest`. -/
def outlineOnto : Value → List String → List String
  | integer n, rest => ("INTEGER " ++ toString n.toInt) :: rest
  | float x, rest => ("FLOAT " ++ floatBits x) :: rest
  | boolean b, rest => ("BOOLEAN " ++ if b then "true" else "false") :: rest
  | string s, rest => ("STRING " ++ s) :: rest
  | null, rest => "NULL" :: rest
  | returned v, rest => "RETURN_VALUE" :: v.outlineOnto rest
  | error message, rest => ("ERROR " ++ message) :: rest
  | function f, rest =>
    ("FUNCTION " ++ toString f.parameters.length ++ " " ++ f.render) :: rest
  | native f, rest => ("BUILTIN " ++ f.name) :: rest
  | array elements, rest =>
    ("ARRAY " ++ toString elements.length) :: outlineAllOnto elements rest
  | hash entries, rest =>
    ("HASH " ++ toString entries.length) :: outlineEntriesOnto entries rest
termination_by structural v => v

/-- Puts the lines of some values in front of `rest`. -/
def outlineAllOnto : List Value → List String → List String
  | [], rest => rest
  | v :: vs, rest => v.outlineOnto (outlineAllOnto vs rest)
termination_by structural vs => vs

/-- Puts the lines of some entries in front of `rest`: the hash key, the key, the value. -/
def outlineEntriesOnto : List (HashKey × Value × Value) → List String → List String
  | [], rest => rest
  | (filed, key, value) :: entries, rest =>
    ("KEY " ++ (Kind.ofKey filed.kind).name ++ " " ++ toString filed.number.toNat) ::
      key.outlineOnto (value.outlineOnto (outlineEntriesOnto entries rest))
termination_by structural es => es

end

/-- A value and what it holds, each before its parts. -/
def outline (v : Value) : List String := v.outlineOnto []

end Value

end Monkey
