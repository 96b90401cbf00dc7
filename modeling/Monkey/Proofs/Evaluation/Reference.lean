import Monkey.Evaluator
import Monkey.Proofs.Evaluation.Datum

/-!
# Evaluation with exceptions

The reference for evaluation. Here values are data and are never asked whether
they are signals. A fault and a `return` break off whatever is going on
(`Raised`): a `return` up to the nearest call of a function of the language or up
to the program, a fault up to the program, and so do calls that nest too deeply.
What was changed before stays changed.

`run` tells how a program ends. That evaluation with signals does the same is
shown in the module after this one.
-/

namespace Monkey.Reference

/-- What breaks off an evaluation. -/
inductive Raised where
  | fault (message : String)
  | returned (d : Datum)
  | depthExceeded

/-- What a run reads and changes. Only data are stored. -/
structure Memory where
  store : Store Datum
  closures : Nat
  printed : String

namespace Memory

/-- A new scope inside another. -/
def enclose (m : Memory) (outer : Scope) : Scope × Memory :=
  let (scope, store) := m.store.enclose outer
  (scope, { m with store })

/-- Gives a name a datum in a scope. -/
def define (m : Memory) (scope : Scope) (name : String) (d : Datum) : Memory :=
  { m with store := m.store.set scope name d }

/-- Gives several names data in a scope, in order. -/
def defineAll (m : Memory) (scope : Scope) (pairs : List (String × Datum)) : Memory :=
  { m with store := m.store.setAll scope pairs }

/-- A new function. -/
def newClosure (m : Memory) (parameters : List Ident) (body : Block) (scope : Scope) :
    Datum × Memory :=
  (⟨.function ⟨m.closures, parameters, body, scope⟩, trivial⟩,
    { m with closures := m.closures + 1 })

/-- Prints a text. -/
def print (m : Memory) (text : String) : Memory :=
  { m with printed := m.printed ++ text }

end Memory

/-- A step of a run. What it has changed is kept also when it is broken off. -/
abbrev Run := EStateM Raised Memory

/-- Breaks off with a fault. -/
def fail {α : Type} (f : Fault) : Run α := throw (.fault f.message)

/-- Gives a datum, or breaks off with a message. -/
def orFail : Except String Datum → Run Datum
  | .ok d => pure d
  | .error message => throw (.fault message)

/-- The nearest call: what is returned is its result. -/
def catchReturn (x : Run Datum) : Run Datum := fun m =>
  match x m with
  | .error (.returned d) m => .ok d m
  | result => result

/-- Looks up a name. -/
def lookUp (scope : Scope) (name : String) : Run Datum := do
  match (← get).store.get? scope name with
  | some d => return d
  | none =>
    match Library.standard.find? name with
    | some f => return ⟨.native f, trivial⟩
    | none => fail (.unboundName name)

/-- Makes a scope inside another. -/
def enclose (outer : Scope) : Run Scope :=
  modifyGet (·.enclose outer)

/-- Makes a function. -/
def newClosure (parameters : List Ident) (body : Block) (scope : Scope) : Run Datum :=
  modifyGet (·.newClosure parameters body scope)

/-- What a call of a datum with some arguments does. -/
abbrev Apply := Datum → List Datum → Run Datum

mutual

/-- Evaluates an expression. -/
def evalExpr (apply : Apply) : Expr → Scope → Run Datum
  | .ident id, scope => lookUp scope id.name
  | .boolean _ value, _ => pure ⟨.boolean value, trivial⟩
  | .integer _ value, _ => pure ⟨.integer value, trivial⟩
  | .float _ value, _ => pure ⟨.float value, trivial⟩
  | .string _ value, _ => pure ⟨.string value, trivial⟩
  | .array _ elements, scope => do
    let values ← evalExprs apply elements scope
    return .array values
  | .hash _ pairs, scope => do
    let entries ← evalPairs apply pairs [] scope
    return .hash entries
  | .unary _ operator operand, scope => do
    let d ← evalExpr apply operand scope
    orFail (d.unary operator)
  | .binary _ operator left right, scope => do
    let a ← evalExpr apply left scope
    let b ← evalExpr apply right scope
    orFail (a.binary operator b)
  | .conditional _ condition consequence alternative, scope => do
    let d ← evalExpr apply condition scope
    if d.value.isTruthy then
      let inner ← enclose scope
      evalBlock apply consequence inner
    else
      match alternative with
      | none => return .null
      | some block =>
        let inner ← enclose scope
        evalBlock apply block inner
  | .function _ parameters body, scope => newClosure parameters body scope
  | .call _ callee arguments, scope => do
    let f ← evalExpr apply callee scope
    let values ← evalExprs apply arguments scope
    apply f values
  | .index _ target key, scope => do
    let t ← evalExpr apply target scope
    let k ← evalExpr apply key scope
    orFail (t.index k)
termination_by structural e => e

/-- Evaluates expressions from left to right. -/
def evalExprs (apply : Apply) : List Expr → Scope → Run (List Datum)
  | [], _ => return []
  | e :: es, scope => do
    let d ← evalExpr apply e scope
    let ds ← evalExprs apply es scope
    return d :: ds
termination_by structural es => es

/-- Evaluates the pairs of a hash in order and files them in `entries`. -/
def evalPairs (apply : Apply) : List (Expr × Expr) → List (HashKey × Datum × Datum) → Scope →
    Run (List (HashKey × Datum × Datum))
  | [], entries, _ => return entries
  | (key, value) :: pairs, entries, scope => do
    let k ← evalExpr apply key scope
    match k.value.hashKey? with
    | none => fail (.notHashable k.value.kind)
    | some filed =>
      let d ← evalExpr apply value scope
      evalPairs apply pairs (HashTable.insert filed (k, d) entries) scope
termination_by structural pairs => pairs

/-- Evaluates a statement. -/
def evalStmt (apply : Apply) : Stmt → Scope → Run Datum
  | .bind _ name value, scope => do
    let d ← evalExpr apply value scope
    modify (·.define scope name.name d)
    return .null
  | .ret _ none, _ => throw (.returned .null)
  | .ret _ (some value), scope => do
    let d ← evalExpr apply value scope
    throw (.returned d)
  | .expr _ expression, scope => evalExpr apply expression scope
termination_by structural s => s

/-- Evaluates statements in order. The result is that of the last one, or `latest` if there
is none. -/
def evalStmts (apply : Apply) : List Stmt → Datum → Scope → Run Datum
  | [], latest, _ => pure latest
  | s :: ss, _, scope => do
    let d ← evalStmt apply s scope
    evalStmts apply ss d scope
termination_by structural ss => ss

/-- Evaluates the statements of a block in a scope that is there already. -/
def evalBlock (apply : Apply) : Block → Scope → Run Datum
  | .mk _ statements, scope => evalStmts apply statements .null scope
termination_by structural b => b

end

/-- Calls a datum, with at most as many calls nested in each other as the number says. -/
def applyDatum : Nat → Apply
  | remaining, f, arguments =>
    match f.value with
    | .function g =>
      if g.parameters.length ≠ arguments.length then
        fail (.wrongArity g.parameters.length arguments.length)
      else
        match remaining with
        | 0 => throw .depthExceeded
        | n + 1 => do
          let scope ← enclose g.scope
          modify (·.defineAll scope ((g.parameters.map (·.name)).zip arguments))
          catchReturn (evalBlock (applyDatum n) g.body scope)
    | .native g => do
      modify (·.print (Library.standard.call g (arguments.map Datum.value)).printed)
      orFail (Datum.call g arguments)
    | other => fail (.notFunction other.kind)

/-- How a run ends. -/
inductive Ending where
  | value (d : Datum)
  | error (message : String)
  | depthExceeded (limit : Nat)

/-- Runs a program. Everything that is raised is caught here. -/
def run (maxDepth : Nat) (p : Program) (scope : Scope) (m : Memory) : Ending × Memory :=
  match evalStmts (applyDatum maxDepth) p.statements .null scope m with
  | .ok d m => (.value d, m)
  | .error (.returned d) m => (.value d, m)
  | .error (.fault message) m => (.error message, m)
  | .error .depthExceeded m => (.depthExceeded maxDepth, m)

end Monkey.Reference
