import Monkey.Evaluation
import Monkey.Tree.Parser

/-!
# Evaluators

An evaluator is a library and a depth limit. It runs programs, statements and
expressions on a machine and tells how a run ended. It has no state of its own,
so one run leaves nothing behind for the next but what is on the machine.
-/

namespace Monkey

/-- How a run ends: with a value, or because calls nested more deeply than `limit`. -/
inductive Outcome where
  | value (v : Value)
  | depthExceeded (limit : Nat)

/-- What becomes of a source text: it is refused, or it is run. -/
inductive Verdict where
  | malformed (diagnostics : List Diagnostic)
  | ran (outcome : Outcome)

/-- Wording for a source text that was refused. -/
def malformedMessage (diagnostics : List Diagnostic) : String :=
  "parsing failed with " ++ toString diagnostics.length ++ " error(s)"

/-- Wording for calls that nest too deeply. -/
def depthMessage (limit : Nat) : String :=
  "maximum call depth of " ++ toString limit ++ " exceeded"

/-- Which native functions there are, and how deeply calls may nest. -/
structure Evaluator where
  library : Library
  maxDepth : Nat

namespace Evaluator

/-- How deeply calls may nest if nothing else is said. -/
def defaultDepth : Nat := 2000

/-- The standard library with a depth limit. -/
def standard (maxDepth : Nat) : Evaluator := ⟨Library.standard, maxDepth⟩

variable (e : Evaluator)

/-- What a call does at the outermost level. -/
def apply : Apply := applyValue e.library e.maxDepth

/-- Runs a step and tells how it ends. -/
def finish (x : Eval Value) (m : Machine) : Outcome × Machine :=
  match x m with
  | .ok v m => (.value v, m)
  | .error .callDepthExceeded m => (.depthExceeded e.maxDepth, m)

/-- Runs a program. -/
def runProgram (p : Program) (scope : Scope) (m : Machine) : Outcome × Machine :=
  e.finish (p.eval e.library e.apply scope) m

/-- Runs one statement. A returned value is not unwrapped. -/
def runStmt (s : Stmt) (scope : Scope) (m : Machine) : Outcome × Machine :=
  e.finish (s.eval e.library e.apply scope) m

/-- Evaluates one expression. -/
def runExpr (x : Expr) (scope : Scope) (m : Machine) : Outcome × Machine :=
  e.finish (x.eval e.library e.apply scope) m

/-- Parses a source text and runs it, if nothing is wrong with it. -/
def runSource (source : String) (scope : Scope) (m : Machine) : Verdict × Machine :=
  let parsed := parse source
  if parsed.diagnostics.isEmpty then
    let (outcome, m) := e.runProgram parsed.program scope m
    (.ran outcome, m)
  else
    (.malformed parsed.diagnostics, m)

end Evaluator

end Monkey
