import Monkey.Machine
import Monkey.Value.Operator

/-!
# Evaluation

A program is run by walking its tree. Signals are values: each step looks at
what its parts give, from left to right, and hands on the first signal instead
of going on (`Eval.unlessSignal`). A call turns a returned value back into a
plain one. The one thing that ends a run at once is a call nested too deeply.

`Expr.eval` and its companions follow the tree and take what a call does as an
argument. `applyValue` supplies it: with `n + 1` more calls allowed, a body is
evaluated with `n` allowed. So the depth limit is also what makes evaluation
end.
-/

namespace Monkey

/-- What ends a run at once. -/
inductive Abort where
  | callDepthExceeded
deriving DecidableEq, Repr, Inhabited

/-- A step of a run. What it has changed is kept also when it ends the run. -/
abbrev Eval := EStateM Abort Machine

/-- What a call of a value with some arguments does. -/
abbrev Apply := Value → List Value → Eval Value

namespace Eval

/-- Goes on with the value of `x`, unless it is a signal. -/
@[inline] def unlessSignal (x : Eval Value) (k : Value → Eval Value) : Eval Value := do
  let v ← x
  if v.isSignal then pure v else k v

/-- Looks up a name. -/
def lookUp (library : Library) (scope : Scope) (name : String) : Eval Value :=
  return (← get).lookUp library scope name

/-- Makes a scope inside another. -/
def enclose (outer : Scope) : Eval Scope :=
  modifyGet (·.enclose outer)

/-- Makes a function. -/
def newClosure (parameters : List Ident) (body : Block) (scope : Scope) : Eval Value :=
  modifyGet (·.newClosure parameters body scope)

end Eval

mutual

/-- Evaluates an expression. -/
def Expr.eval (library : Library) (apply : Apply) : Expr → Scope → Eval Value
  | .ident id, scope => Eval.lookUp library scope id.name
  | .boolean _ value, _ => pure (.boolean value)
  | .integer _ value, _ => pure (.integer value)
  | .float _ value, _ => pure (.float value)
  | .string _ value, _ => pure (.string value)
  | .array _ elements, scope => do
    match ← Expr.evalAll library apply elements scope with
    | .ok values => return .array values
    | .error signal => return signal
  | .hash _ pairs, scope => do
    match ← Expr.evalPairs library apply pairs [] scope with
    | .ok entries => return .hash entries
    | .error signal => return signal
  | .unary _ operator operand, scope =>
    Eval.unlessSignal (operand.eval library apply scope) fun v =>
      pure (Value.unary operator v)
  | .binary _ operator left right, scope =>
    Eval.unlessSignal (left.eval library apply scope) fun a =>
      Eval.unlessSignal (right.eval library apply scope) fun b =>
        pure (Value.binary operator a b)
  | .conditional _ condition consequence alternative, scope =>
    Eval.unlessSignal (condition.eval library apply scope) fun v =>
      if v.isTruthy then do
        let inner ← Eval.enclose scope
        consequence.eval library apply inner
      else
        match alternative with
        | none => pure .null
        | some block => do
          let inner ← Eval.enclose scope
          block.eval library apply inner
  | .function _ parameters body, scope => Eval.newClosure parameters body scope
  | .call _ callee arguments, scope =>
    Eval.unlessSignal (callee.eval library apply scope) fun f => do
      match ← Expr.evalAll library apply arguments scope with
      | .ok values => apply f values
      | .error signal => return signal
  | .index _ target key, scope =>
    Eval.unlessSignal (target.eval library apply scope) fun t =>
      Eval.unlessSignal (key.eval library apply scope) fun k =>
        pure (Value.index t k)
termination_by structural e => e

/-- Evaluates expressions from left to right, up to the first that gives a signal. -/
def Expr.evalAll (library : Library) (apply : Apply) :
    List Expr → Scope → Eval (Except Value (List Value))
  | [], _ => return .ok []
  | e :: es, scope => do
    let v ← e.eval library apply scope
    if v.isSignal then
      return .error v
    else
      match ← Expr.evalAll library apply es scope with
      | .ok vs => return .ok (v :: vs)
      | .error signal => return .error signal
termination_by structural es => es

/-- Evaluates the pairs of a hash in order and files them in `entries`. A key that
cannot be filed is refused before its value is evaluated. -/
def Expr.evalPairs (library : Library) (apply : Apply) :
    List (Expr × Expr) → List (HashKey × Value × Value) → Scope →
      Eval (Except Value (List (HashKey × Value × Value)))
  | [], entries, _ => return .ok entries
  | (key, value) :: pairs, entries, scope => do
    let k ← key.eval library apply scope
    if k.isSignal then
      return .error k
    else
      match k.hashKey? with
      | none => return .error (Fault.notHashable k.kind).toValue
      | some filed =>
        let v ← value.eval library apply scope
        if v.isSignal then
          return .error v
        else
          Expr.evalPairs library apply pairs (HashTable.insert filed (k, v) entries) scope
termination_by structural pairs => pairs

/-- Evaluates a statement. -/
def Stmt.eval (library : Library) (apply : Apply) : Stmt → Scope → Eval Value
  | .bind _ name value, scope =>
    Eval.unlessSignal (value.eval library apply scope) fun v => do
      modify (·.define scope name.name v)
      return .null
  | .ret _ none, _ => pure (.returned .null)
  | .ret _ (some value), scope =>
    Eval.unlessSignal (value.eval library apply scope) fun v => pure (.returned v)
  | .expr _ expression, scope => expression.eval library apply scope
termination_by structural s => s

/-- Evaluates statements in order, up to the first that gives a signal. The result
is that of the last one, or `latest` if there is none. -/
def Stmt.evalAll (library : Library) (apply : Apply) : List Stmt → Value → Scope → Eval Value
  | [], latest, _ => pure latest
  | s :: ss, _, scope =>
    Eval.unlessSignal (s.eval library apply scope) fun v =>
      Stmt.evalAll library apply ss v scope
termination_by structural ss => ss

/-- Evaluates the statements of a block in a scope that is there already. -/
def Block.eval (library : Library) (apply : Apply) : Block → Scope → Eval Value
  | .mk _ statements, scope => Stmt.evalAll library apply statements .null scope
termination_by structural b => b

end

/-- Calls a value, with at most as many calls nested in each other as the number says.
The count of arguments is checked before the depth. -/
def applyValue (library : Library) : Nat → Apply
  | remaining, .function f, arguments =>
    if f.parameters.length ≠ arguments.length then
      pure (Fault.wrongArity f.parameters.length arguments.length).toValue
    else
      match remaining with
      | 0 => throw .callDepthExceeded
      | n + 1 => do
        let scope ← Eval.enclose f.scope
        modify (·.defineAll scope ((f.parameters.map (·.name)).zip arguments))
        let v ← f.body.eval library (applyValue library n) scope
        return v.unwrapReturned
  | _, .native f, arguments => do
    let reply := library.call f arguments
    modify (·.print reply.printed)
    return reply.value
  | _, other, _ => pure (Fault.notFunction other.kind).toValue

/-- Evaluates a program in a scope. A returned value is the program's value. -/
def Program.eval (library : Library) (apply : Apply) (p : Program) (scope : Scope) :
    Eval Value := do
  let v ← Stmt.evalAll library apply p.statements .null scope
  return v.unwrapReturned

end Monkey
