import Monkey.Tree

/-!
# Printing trees

A tree is printed as source text with every operation in parentheses. Numbers
are printed as they were written. The functions on lists of nodes give the
texts of the nodes one by one (`Expr.renderAll_eq_map`, `Stmt.renderAll_eq_map`),
and the node around them joins them.
-/

namespace Monkey

/-- Texts with a comma between them. -/
def commaSeparated (texts : List String) : String :=
  ", ".intercalate texts

/-- Texts with a blank between them. -/
def blankSeparated (texts : List String) : String :=
  " ".intercalate texts

/-- A parameter list in parentheses. -/
def Ident.renderParameters (parameters : List Ident) : String :=
  "(" ++ commaSeparated (parameters.map (·.name)) ++ ")"

mutual

/-- Source text of an expression. -/
def Expr.render : Expr → String
  | .ident id => id.name
  | .boolean _ value => if value then "true" else "false"
  | .integer token _ => token.literal
  | .float token _ => token.literal
  | .string _ value => "\"" ++ value ++ "\""
  | .array _ elements => "[" ++ commaSeparated (Expr.renderAll elements) ++ "]"
  | .hash _ pairs => "\x7b" ++ commaSeparated (Expr.renderPairs pairs) ++ "\x7d"
  | .unary _ operator operand => "(" ++ operator ++ operand.render ++ ")"
  | .binary _ operator left right =>
    "(" ++ left.render ++ " " ++ operator ++ " " ++ right.render ++ ")"
  | .conditional _ condition consequence none =>
    "if (" ++ condition.render ++ ") " ++ consequence.render
  | .conditional _ condition consequence (some alternative) =>
    "if (" ++ condition.render ++ ") " ++ consequence.render ++ " else " ++ alternative.render
  | .function _ parameters body => "fn" ++ Ident.renderParameters parameters ++ " " ++ body.render
  | .call _ callee arguments =>
    callee.render ++ "(" ++ commaSeparated (Expr.renderAll arguments) ++ ")"
  | .index _ target key => "(" ++ target.render ++ "[" ++ key.render ++ "])"
termination_by structural e => e

/-- Source texts of some expressions. -/
def Expr.renderAll : List Expr → List String
  | [] => []
  | e :: es => e.render :: Expr.renderAll es
termination_by structural es => es

/-- Source texts of some pairs, each with a colon. -/
def Expr.renderPairs : List (Expr × Expr) → List String
  | [] => []
  | (key, value) :: pairs => (key.render ++ ": " ++ value.render) :: Expr.renderPairs pairs
termination_by structural pairs => pairs

/-- Source text of a statement. -/
def Stmt.render : Stmt → String
  | .bind _ name value => "let " ++ name.name ++ " = " ++ value.render ++ ";"
  | .ret _ (some value) => "return " ++ value.render ++ ";"
  | .ret _ none => "return;"
  | .expr _ expression => expression.render ++ ";"
termination_by structural s => s

/-- Source texts of some statements. -/
def Stmt.renderAll : List Stmt → List String
  | [] => []
  | s :: ss => s.render :: Stmt.renderAll ss
termination_by structural ss => ss

/-- Source text of a block. -/
def Block.render : Block → String
  | .mk _ [] => "\x7b \x7d"
  | .mk _ (s :: ss) => "\x7b " ++ blankSeparated (s.render :: Stmt.renderAll ss) ++ " \x7d"
termination_by structural b => b

end

/-- Source text of a program. -/
def Program.render (p : Program) : String :=
  blankSeparated (Stmt.renderAll p.statements)

theorem Expr.renderAll_eq_map (es : List Expr) : Expr.renderAll es = es.map Expr.render := by
  induction es with
  | nil => rfl
  | cons e es ih => simp [Expr.renderAll, ih]

theorem Stmt.renderAll_eq_map (ss : List Stmt) : Stmt.renderAll ss = ss.map Stmt.render := by
  induction ss with
  | nil => rfl
  | cons s ss ih => simp [Stmt.renderAll, ih]

end Monkey
