import Monkey.Value

/-!
# Faults

What can go wrong while a program runs. A fault becomes an error value that
carries only its message, so a program's errors and the errors that a host
program makes are the same sort of value.
-/

namespace Monkey

/-- A reason for an error value. -/
inductive Fault where
  | integerOverflow
  | divisionByZero
  | unknownUnary (operator : String) (operand : Value.Kind)
  | unknownBinary (left : Value.Kind) (operator : String) (right : Value.Kind)
  | typeMismatch (left : Value.Kind) (operator : String) (right : Value.Kind)
  | notIndexable (target : Value.Kind)
  | notHashable (key : Value.Kind)
  | unboundName (name : String)
  | notFunction (callee : Value.Kind)
  | wrongArity (want got : Nat)
  | noLength (argument : Value.Kind)
  | notArray (function : Native) (argument : Value.Kind)
deriving DecidableEq, Repr

namespace Fault

/-- Wording of a fault. -/
def message : Fault → String
  | integerOverflow => "integer overflow"
  | divisionByZero => "division by zero"
  | unknownUnary operator operand => "unknown operator: " ++ operator ++ operand.name
  | unknownBinary left operator right =>
    "unknown operator: " ++ left.name ++ " " ++ operator ++ " " ++ right.name
  | typeMismatch left operator right =>
    "type mismatch: " ++ left.name ++ " " ++ operator ++ " " ++ right.name
  | notIndexable target => "index operator not supported: " ++ target.name
  | notHashable key => "unusable as hash key: " ++ key.name
  | unboundName name => "identifier not found: " ++ name
  | notFunction callee => "not a function: " ++ callee.name
  | wrongArity want got =>
    "wrong number of arguments: want=" ++ toString want ++ ", got=" ++ toString got
  | noLength argument => "argument to `len` not supported, got " ++ argument.name
  | notArray function argument =>
    "argument to `" ++ function.name ++ "` must be " ++ Value.Kind.array.name ++ ", got " ++
      argument.name

/-- The error value of a fault. -/
def toValue (f : Fault) : Value := .error f.message

end Fault

end Monkey
