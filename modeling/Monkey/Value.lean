import Monkey.Digest
import Monkey.HashTable
import Monkey.Store
import Monkey.Tree

/-!
# Values

What an expression evaluates to. Two sorts of value are signals, which stop the
evaluation around them: an error, and a value that is being returned. Integers,
booleans and strings can be keys of a hash. Only null and false count as false.

Equality looks inside arrays and hashes. Two functions are equal if they are the
same one, and two native functions if they have the same name. Numbers compare
as binary64 numbers do, so a value that holds a NaN differs from itself.
-/

namespace Monkey

/-- A function of the language: which one it is, its text, and where it was made. -/
structure Closure where
  /-- No two functions of a run have the same number. -/
  number : Nat
  parameters : List Ident
  body : Block
  scope : Scope

/-- A function that is not written in the language. -/
inductive Native where
  | len
  | puts
  | first
  | last
  | rest
  | push
  /-- A function that the host program adds under a name. -/
  | host (name : String)
deriving DecidableEq, Repr, Inhabited

/-- The name a native function goes by. -/
def Native.name : Native → String
  | len => "len"
  | puts => "puts"
  | first => "first"
  | last => "last"
  | rest => "rest"
  | push => "push"
  | host name => name

/-- A value. -/
inductive Value where
  | integer (n : Int64)
  | float (x : Float)
  | boolean (b : Bool)
  | string (s : String)
  | null
  /-- A value on its way out of a function. -/
  | returned (v : Value)
  | error (message : String)
  | function (f : Closure)
  | native (f : Native)
  | array (elements : List Value)
  /-- Each entry keeps the key's own value beside the value filed under it. -/
  | hash (entries : List (HashKey × Value × Value))
deriving Inhabited

/-- What sort of value a value is. -/
inductive Value.Kind where
  | integer
  | float
  | boolean
  | string
  | null
  | returned
  | error
  | function
  | native
  | array
  | hash
deriving DecidableEq, Repr, Inhabited

namespace Value

namespace Kind

/-- Name of a kind, as messages quote it. -/
def name : Kind → String
  | integer => "INTEGER"
  | float => "FLOAT"
  | boolean => "BOOLEAN"
  | string => "STRING"
  | null => "NULL"
  | returned => "RETURN_VALUE"
  | error => "ERROR"
  | function => "FUNCTION"
  | native => "BUILTIN"
  | array => "ARRAY"
  | hash => "HASH"

/-- Position in the order of kinds. -/
def rank : Kind → Nat
  | integer => 0
  | float => 1
  | boolean => 2
  | string => 3
  | null => 4
  | returned => 5
  | error => 6
  | function => 7
  | native => 8
  | array => 9
  | hash => 10

/-- How two kinds are ordered. -/
def compare (a b : Kind) : Ordering :=
  Ord.compare a.rank b.rank

/-- The kind of the values that are filed under a kind of key. -/
def ofKey : HashKey.Kind → Kind
  | .integer => integer
  | .boolean => boolean
  | .string => string

end Kind

/-- The kind of a value. -/
def kind : Value → Kind
  | integer _ => .integer
  | float _ => .float
  | boolean _ => .boolean
  | string _ => .string
  | null => .null
  | returned _ => .returned
  | error _ => .error
  | function _ => .function
  | native _ => .native
  | array _ => .array
  | hash _ => .hash

/-- Whether a value stops the evaluation around it. -/
def isSignal : Value → Bool
  | returned _ => true
  | error _ => true
  | _ => false

/-- Whether a value counts as true. -/
def isTruthy : Value → Bool
  | null => false
  | boolean b => b
  | _ => true

/-- The value that a call gives when its body gives `v`. -/
def unwrapReturned : Value → Value
  | returned v => v
  | v => v

/-- What a value is filed under in a hash. -/
def hashKey? : Value → Option HashKey
  | integer n => some ⟨.integer, n.toUInt64⟩
  | boolean b => some ⟨.boolean, if b then 1 else 0⟩
  | string s => some ⟨.string, Digest.ofString s⟩
  | _ => none

mutual

/-- Whether two values are equal. -/
def equal : Value → Value → Bool
  | integer a, integer b => a == b
  | float a, float b => a == b
  | boolean a, boolean b => a == b
  | string a, string b => a == b
  | null, null => true
  | returned a, returned b => a.equal b
  | error a, error b => a == b
  | function a, function b => a.number == b.number
  | native a, native b => a.name == b.name
  | array a, array b => equalAll a b
  | hash a, hash b => equalEntries a b
  | _, _ => false
termination_by structural v => v

/-- Whether two lists of values are equal, element by element. -/
def equalAll : List Value → List Value → Bool
  | [], [] => true
  | a :: as, b :: bs => a.equal b && equalAll as bs
  | _, _ => false
termination_by structural vs => vs

/-- Whether two tables have equal entries under equal keys. -/
def equalEntries : List (HashKey × Value × Value) → List (HashKey × Value × Value) → Bool
  | [], [] => true
  | (hk, k, v) :: as, (hl, l, w) :: bs =>
    hk == hl && k.equal l && v.equal w && equalEntries as bs
  | _, _ => false
termination_by structural es => es

end

end Value

end Monkey
