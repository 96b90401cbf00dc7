import Monkey.Value.Fault
import Monkey.Value.Printer

/-!
# Native functions

A library says which native functions a program can name, and holds those that
the host program adds. A native function gets the values of its arguments and
gives one value. Of the standard ones only `puts` prints.
-/

namespace Monkey

/-- What a native function does when it is called. -/
structure Reply where
  value : Value
  printed : String

namespace Reply

/-- Gives a value and prints nothing. -/
def silent (v : Value) : Reply := ⟨v, ""⟩

end Reply

namespace Native

/-- Length of a string in characters, or size of an array or a hash. -/
def length : List Value → Value
  | [.string s] => .integer (Int64.ofNat s.length)
  | [.array elements] => .integer (Int64.ofNat elements.length)
  | [.hash entries] => .integer (Int64.ofNat entries.length)
  | [other] => (Fault.noLength other.kind).toValue
  | arguments => (Fault.wrongArity 1 arguments.length).toValue

/-- Applies `f` to the one argument, which has to be an array. -/
def onArray (function : Native) (f : List Value → Value) : List Value → Value
  | [.array elements] => f elements
  | [other] => (Fault.notArray function other.kind).toValue
  | arguments => (Fault.wrongArity 1 arguments.length).toValue

/-- The elements of an array after the first, null if it has none. -/
def tail : List Value → Value
  | [] => .null
  | _ :: elements => .array elements

/-- An array with one more element at its end. -/
def append : List Value → Value
  | [.array elements, v] => .array (elements ++ [v])
  | [other, _] => (Fault.notArray .push other.kind).toValue
  | arguments => (Fault.wrongArity 2 arguments.length).toValue

/-- The texts of some values, each on a line. -/
def lines (values : List Value) : String :=
  String.join (values.map fun v => v.render ++ "\n")

end Native

/-- The native functions that a program can call. -/
structure Library where
  /-- Those that can be named. -/
  visible : List Native
  /-- Those that the host program defines. -/
  hosted : List (String × (List Value → Value))

namespace Library

/-- No native functions. -/
def empty : Library := ⟨[], []⟩

/-- The native functions of the language. -/
def standard : Library := ⟨[.len, .puts, .first, .last, .rest, .push], []⟩

/-- Adds a function of the host program, in place of any that has the same name. -/
def register (l : Library) (name : String) (f : List Value → Value) : Library :=
  ⟨.host name :: l.visible.filter (·.name != name), (name, f) :: l.hosted⟩

/-- The native function that a name stands for. -/
def find? (l : Library) (name : String) : Option Native :=
  l.visible.find? (·.name == name)

/-- Calls a native function. -/
def call (l : Library) (f : Native) (arguments : List Value) : Reply :=
  match f with
  | .len => .silent (Native.length arguments)
  | .puts => ⟨.null, Native.lines arguments⟩
  | .first => .silent (Native.onArray f (fun elements => elements.head?.getD .null) arguments)
  | .last => .silent (Native.onArray f (fun elements => elements.getLast?.getD .null) arguments)
  | .rest => .silent (Native.onArray f Native.tail arguments)
  | .push => .silent (Native.append arguments)
  | .host name =>
    match l.hosted.lookup name with
    | some g => .silent (g arguments)
    | none => .silent (Fault.notFunction .native).toValue

end Library

end Monkey
