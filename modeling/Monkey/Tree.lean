import Monkey.Token

/-!
# Trees of programs

A program is a list of statements, a statement holds expressions, and an
expression may hold blocks of statements. Every node keeps the token it is
named after: a statement its first token, a call its opening parenthesis, an
index its opening bracket, an operation its operator. Names, operators and
values stand beside the token, so a node can also be made by hand.
-/

namespace Monkey

/-- A name with the token it was read from. -/
structure Ident where
  token : Token
  name : String
deriving DecidableEq, Repr, Inhabited

/-- The identifier that a token denotes. -/
def Ident.ofToken (token : Token) : Ident := ⟨token, token.literal⟩

mutual

/-- An expression. -/
inductive Expr where
  | ident (id : Ident)
  | boolean (token : Token) (value : Bool)
  | integer (token : Token) (value : Int64)
  | float (token : Token) (value : Float)
  | string (token : Token) (value : String)
  | array (token : Token) (elements : List Expr)
  /-- Pairs stand in source order, repeated keys included. -/
  | hash (token : Token) (pairs : List (Expr × Expr))
  | unary (token : Token) (operator : String) (operand : Expr)
  | binary (token : Token) (operator : String) (left right : Expr)
  | conditional (token : Token) (condition : Expr) (consequence : Block)
      (alternative : Option Block)
  | function (token : Token) (parameters : List Ident) (body : Block)
  | call (token : Token) (callee : Expr) (arguments : List Expr)
  | index (token : Token) (target key : Expr)

/-- A statement. -/
inductive Stmt where
  | bind (token : Token) (name : Ident) (value : Expr)
  | ret (token : Token) (value : Option Expr)
  | expr (token : Token) (expression : Expr)

/-- Statements in braces: a function body or a branch. -/
inductive Block where
  | mk (token : Token) (statements : List Stmt)

end

/-- A whole source text. -/
structure Program where
  statements : List Stmt

/-- The token an expression is named after. -/
def Expr.token : Expr → Token
  | .ident id => id.token
  | .boolean token _ => token
  | .integer token _ => token
  | .float token _ => token
  | .string token _ => token
  | .array token _ => token
  | .hash token _ => token
  | .unary token _ _ => token
  | .binary token _ _ _ => token
  | .conditional token _ _ _ => token
  | .function token _ _ => token
  | .call token _ _ => token
  | .index token _ _ => token

/-- The first token of a statement. -/
def Stmt.token : Stmt → Token
  | .bind token _ _ => token
  | .ret token _ => token
  | .expr token _ => token

/-- The opening brace of a block. -/
def Block.token : Block → Token
  | .mk token _ => token

/-- The statements of a block. -/
def Block.statements : Block → List Stmt
  | .mk _ statements => statements

/-- Literal of the first token of a program, empty if there is none. -/
def Program.literal (p : Program) : String :=
  (p.statements.head?.map (·.token.literal)).getD ""

/-- Place of the first token of a program. -/
def Program.location (p : Program) : Location :=
  (p.statements.head?.map (·.token.location)).getD Location.start

end Monkey
