import Monkey.Library

/-!
# Machines

A machine is what a run reads and changes: the bindings of all scopes, the count
of functions made so far, and the text printed so far. Each operation here is a
step that evaluation is built from. New scopes and new functions are different
from all before them because frames and functions are numbered as they come.
-/

namespace Monkey

/-- What a run reads and changes. -/
structure Machine where
  store : Store Value
  /-- How many functions have been made. -/
  closures : Nat
  /-- What has been printed. -/
  printed : String

namespace Machine

/-- A machine on which nothing has run. -/
def new : Machine := ⟨Store.empty, 0, ""⟩

/-- A new outermost scope. -/
def root (m : Machine) : Scope × Machine :=
  let (scope, store) := m.store.root
  (scope, { m with store })

/-- A new scope inside another. -/
def enclose (m : Machine) (outer : Scope) : Scope × Machine :=
  let (scope, store) := m.store.enclose outer
  (scope, { m with store })

/-- Gives a name a value in a scope. -/
def define (m : Machine) (scope : Scope) (name : String) (v : Value) : Machine :=
  { m with store := m.store.set scope name v }

/-- Gives several names values in a scope, in order. -/
def defineAll (m : Machine) (scope : Scope) (pairs : List (String × Value)) : Machine :=
  { m with store := m.store.setAll scope pairs }

/-- The value of a name: its binding, or else the native function of that name. -/
def lookUp (m : Machine) (library : Library) (scope : Scope) (name : String) : Value :=
  match m.store.get? scope name with
  | some v => v
  | none =>
    match library.find? name with
    | some f => .native f
    | none => (Fault.unboundName name).toValue

/-- A new function. -/
def newClosure (m : Machine) (parameters : List Ident) (body : Block) (scope : Scope) :
    Value × Machine :=
  (.function ⟨m.closures, parameters, body, scope⟩, { m with closures := m.closures + 1 })

/-- Prints a text. -/
def print (m : Machine) (text : String) : Machine :=
  { m with printed := m.printed ++ text }

/-- Takes away what has been printed. -/
def drain (m : Machine) : String × Machine :=
  (m.printed, { m with printed := "" })

end Machine

end Monkey
