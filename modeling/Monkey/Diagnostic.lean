import Monkey.Token

/-!
# Diagnostics

What can be wrong with a source text. Each diagnostic is about one token, and
its message starts with the place of that token and quotes its literal.
-/

namespace Monkey

/-- One fault of a source text. -/
inductive Diagnostic where
  /-- A token of the kind `expected` was needed where `found` stands. -/
  | unexpected (expected : Token.Kind) (found : Token)
  /-- An expression was needed where a token stands that starts none. -/
  | noExpression (found : Token)
  /-- An expression was needed where text stands that is no token. -/
  | illegal (found : Token)
  /-- An integer literal that does not have 64 bits. -/
  | integerRange (found : Token)
deriving DecidableEq, Repr

namespace Diagnostic

/-- The token that a diagnostic is about. -/
def token : Diagnostic → Token
  | unexpected _ found => found
  | noExpression found => found
  | illegal found => found
  | integerRange found => found

/-- A literal in quotes, as it was written. -/
def quote (t : Token) : String :=
  "\"" ++ t.literal ++ "\""

/-- What is said about the token. -/
def complaint : Diagnostic → String
  | unexpected expected found =>
    "expected next token to be " ++ expected.name ++ ", got " ++ found.kind.name ++
      " (" ++ quote found ++ ") instead"
  | noExpression found =>
    "no prefix parse function for " ++ found.kind.name ++ " (" ++ quote found ++ ") found"
  | illegal found => "illegal token (" ++ quote found ++ ")"
  | integerRange found => "could not parse " ++ quote found ++ " as integer"

/-- The place of the token and what is said about it. -/
def message (d : Diagnostic) : String :=
  d.token.location.render ++ ": " ++ d.complaint

end Diagnostic

end Monkey
