import Monkey.Number.Binary64
import Monkey.Tree

/-!
# Outlines of trees

An outline lists the nodes of a tree, each before its children, with no nesting.
Each line has the sort of the node, its token, and one detail: a name, a value,
an operator or the count of children. `outlineOnto` puts the lines of a node in
front of lines that are given, so that an outline is built in one pass.
-/

namespace Monkey

/-- One node of a tree. -/
structure Outline.Line where
  sort : String
  token : Token
  detail : String
deriving DecidableEq, Repr, Inhabited

/-- Puts the lines of an identifier in front of `rest`. -/
def Ident.outlineOnto (id : Ident) (rest : List Outline.Line) : List Outline.Line :=
  ⟨"Identifier", id.token, id.name⟩ :: rest

mutual

/-- Puts the lines of an expression in front of `rest`. -/
def Expr.outlineOnto : Expr → List Outline.Line → List Outline.Line
  | .ident id, rest => id.outlineOnto rest
  | .boolean token value, rest => ⟨"Boolean", token, if value then "true" else "false"⟩ :: rest
  | .integer token value, rest => ⟨"Integer", token, toString value.toInt⟩ :: rest
  | .float token value, rest => ⟨"Float", token, Binary64.hex value⟩ :: rest
  | .string token value, rest => ⟨"String", token, value⟩ :: rest
  | .array token elements, rest =>
    ⟨"Array", token, toString elements.length⟩ :: Expr.outlineAllOnto elements rest
  | .hash token pairs, rest =>
    ⟨"Hash", token, toString pairs.length⟩ :: Expr.outlinePairsOnto pairs rest
  | .unary token operator operand, rest =>
    ⟨"Prefix", token, operator⟩ :: operand.outlineOnto rest
  | .binary token operator left right, rest =>
    ⟨"Infix", token, operator⟩ :: left.outlineOnto (right.outlineOnto rest)
  | .conditional token condition consequence none, rest =>
    ⟨"If", token, "1"⟩ :: condition.outlineOnto (consequence.outlineOnto rest)
  | .conditional token condition consequence (some alternative), rest =>
    ⟨"If", token, "2"⟩ ::
      condition.outlineOnto (consequence.outlineOnto (alternative.outlineOnto rest))
  | .function token parameters body, rest =>
    ⟨"Function", token, toString parameters.length⟩ ::
      parameters.foldr Ident.outlineOnto (body.outlineOnto rest)
  | .call token callee arguments, rest =>
    ⟨"Call", token, toString arguments.length⟩ ::
      callee.outlineOnto (Expr.outlineAllOnto arguments rest)
  | .index token target key, rest =>
    ⟨"Index", token, ""⟩ :: target.outlineOnto (key.outlineOnto rest)
termination_by structural e => e

/-- Puts the lines of some expressions in front of `rest`. -/
def Expr.outlineAllOnto : List Expr → List Outline.Line → List Outline.Line
  | [], rest => rest
  | e :: es, rest => e.outlineOnto (Expr.outlineAllOnto es rest)
termination_by structural es => es

/-- Puts the lines of some pairs in front of `rest`, each key before its value. -/
def Expr.outlinePairsOnto : List (Expr × Expr) → List Outline.Line → List Outline.Line
  | [], rest => rest
  | (key, value) :: pairs, rest =>
    key.outlineOnto (value.outlineOnto (Expr.outlinePairsOnto pairs rest))
termination_by structural pairs => pairs

/-- Puts the lines of a statement in front of `rest`. -/
def Stmt.outlineOnto : Stmt → List Outline.Line → List Outline.Line
  | .bind token name value, rest =>
    ⟨"Let", token, ""⟩ :: name.outlineOnto (value.outlineOnto rest)
  | .ret token none, rest => ⟨"Return", token, "0"⟩ :: rest
  | .ret token (some value), rest => ⟨"Return", token, "1"⟩ :: value.outlineOnto rest
  | .expr token expression, rest => ⟨"Expression", token, ""⟩ :: expression.outlineOnto rest
termination_by structural s => s

/-- Puts the lines of some statements in front of `rest`. -/
def Stmt.outlineAllOnto : List Stmt → List Outline.Line → List Outline.Line
  | [], rest => rest
  | s :: ss, rest => s.outlineOnto (Stmt.outlineAllOnto ss rest)
termination_by structural ss => ss

/-- Puts the lines of a block in front of `rest`. -/
def Block.outlineOnto : Block → List Outline.Line → List Outline.Line
  | .mk token statements, rest =>
    ⟨"Block", token, toString statements.length⟩ :: Stmt.outlineAllOnto statements rest
termination_by structural b => b

end

/-- The nodes of a program, each before its children. -/
def Program.outline (p : Program) : List Outline.Line :=
  Stmt.outlineAllOnto p.statements []

end Monkey
