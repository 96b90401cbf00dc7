import Monkey.Proofs.Printing.Spelling
import Monkey.Tree.Outline

/-!
# Nodes of a tree

The nodes of a program are listed with their subtrees, each before its children. The outline of the
program has one line for each of them (`Program.outline_eq`).

`Tree.Node.Fits` says what a node and its token have to do with each other: the kind that the token
has, and the name, the value or the operator that is read off it.
-/

namespace Monkey

/-- A node of a tree. A name that is bound and a parameter are expressions, too. -/
inductive Tree.Node where
  | expr (e : Expr)
  | stmt (s : Stmt)
  | block (b : Block)

mutual

/-- An expression and all nodes below it, each before its children. -/
def Expr.nodes : Expr → List Tree.Node
  | .ident id => [.expr (.ident id)]
  | .boolean token value => [.expr (.boolean token value)]
  | .integer token value => [.expr (.integer token value)]
  | .float token value => [.expr (.float token value)]
  | .string token value => [.expr (.string token value)]
  | .array token elements => .expr (.array token elements) :: Expr.nodesAll elements
  | .hash token pairs => .expr (.hash token pairs) :: Expr.nodesPairs pairs
  | .unary token operator operand => .expr (.unary token operator operand) :: operand.nodes
  | .binary token operator left right =>
    .expr (.binary token operator left right) :: (left.nodes ++ right.nodes)
  | .conditional token condition consequence none =>
    .expr (.conditional token condition consequence none) ::
      (condition.nodes ++ consequence.nodes)
  | .conditional token condition consequence (some alternative) =>
    .expr (.conditional token condition consequence (some alternative)) ::
      (condition.nodes ++ (consequence.nodes ++ alternative.nodes))
  | .function token parameters body =>
    .expr (.function token parameters body) ::
      (parameters.map (fun id => .expr (.ident id)) ++ body.nodes)
  | .call token callee arguments =>
    .expr (.call token callee arguments) :: (callee.nodes ++ Expr.nodesAll arguments)
  | .index token target key => .expr (.index token target key) :: (target.nodes ++ key.nodes)
termination_by structural e => e

/-- The nodes of some expressions. -/
def Expr.nodesAll : List Expr → List Tree.Node
  | [] => []
  | e :: es => e.nodes ++ Expr.nodesAll es
termination_by structural es => es

/-- The nodes of some pairs, each key before its value. -/
def Expr.nodesPairs : List (Expr × Expr) → List Tree.Node
  | [] => []
  | (key, value) :: pairs => key.nodes ++ (value.nodes ++ Expr.nodesPairs pairs)
termination_by structural pairs => pairs

/-- A statement and all nodes below it. -/
def Stmt.nodes : Stmt → List Tree.Node
  | .bind token name value => .stmt (.bind token name value) :: .expr (.ident name) :: value.nodes
  | .ret token none => [.stmt (.ret token none)]
  | .ret token (some value) => .stmt (.ret token (some value)) :: value.nodes
  | .expr token expression => .stmt (.expr token expression) :: expression.nodes
termination_by structural s => s

/-- The nodes of some statements. -/
def Stmt.nodesAll : List Stmt → List Tree.Node
  | [] => []
  | s :: ss => s.nodes ++ Stmt.nodesAll ss
termination_by structural ss => ss

/-- A block and all nodes below it. -/
def Block.nodes : Block → List Tree.Node
  | .mk token statements => .block (.mk token statements) :: Stmt.nodesAll statements
termination_by structural b => b

end

/-- All nodes of a program. -/
def Program.nodes (p : Program) : List Tree.Node := Stmt.nodesAll p.statements

theorem Stmt.mem_nodes (s : Stmt) : Tree.Node.stmt s ∈ s.nodes := by
  rcases s with _ | ⟨_, _ | _⟩ | _ <;> simp [Stmt.nodes]

theorem Stmt.mem_nodesAll {s : Stmt} {ss : List Stmt} (h : s ∈ ss) :
    Tree.Node.stmt s ∈ Stmt.nodesAll ss := by
  induction ss with
  | nil => cases h
  | cons s' ss ih =>
    rw [Stmt.nodesAll, List.mem_append]
    rcases List.mem_cons.mp h with rfl | h
    · exact Or.inl s.mem_nodes
    · exact Or.inr (ih h)

namespace Tree.Node

/-- The token a node is named after. -/
def token : Node → Token
  | expr e => e.token
  | stmt s => s.token
  | block b => b.token

/-- The line of a node in an outline. -/
def line : Node → Outline.Line
  | expr (.ident id) => ⟨"Identifier", id.token, id.name⟩
  | expr (.boolean token value) => ⟨"Boolean", token, if value then "true" else "false"⟩
  | expr (.integer token value) => ⟨"Integer", token, toString value.toInt⟩
  | expr (.float token value) => ⟨"Float", token, Binary64.hex value⟩
  | expr (.string token value) => ⟨"String", token, value⟩
  | expr (.array token elements) => ⟨"Array", token, toString elements.length⟩
  | expr (.hash token pairs) => ⟨"Hash", token, toString pairs.length⟩
  | expr (.unary token operator _) => ⟨"Prefix", token, operator⟩
  | expr (.binary token operator _ _) => ⟨"Infix", token, operator⟩
  | expr (.conditional token _ _ none) => ⟨"If", token, "1"⟩
  | expr (.conditional token _ _ (some _)) => ⟨"If", token, "2"⟩
  | expr (.function token parameters _) => ⟨"Function", token, toString parameters.length⟩
  | expr (.call token _ arguments) => ⟨"Call", token, toString arguments.length⟩
  | expr (.index token _ _) => ⟨"Index", token, ""⟩
  | stmt (.bind token _ _) => ⟨"Let", token, ""⟩
  | stmt (.ret token none) => ⟨"Return", token, "0"⟩
  | stmt (.ret token (some _)) => ⟨"Return", token, "1"⟩
  | stmt (.expr token _) => ⟨"Expression", token, ""⟩
  | block (.mk token statements) => ⟨"Block", token, toString statements.length⟩

/-- The token of a node has the kind that fits the node, and what the node says is what its token is
written as. -/
def Fits : Node → Prop
  | expr (.ident id) => id.token.kind = .ident ∧ id.name = id.token.literal
  | expr (.boolean token value) => token.kind = if value then .kwTrue else .kwFalse
  | expr (.integer token value) =>
    token.kind = .int ∧ value.toInt = digitsValue token.literal.toList
  | expr (.float token value) => token.kind = .float ∧ value = Binary64.ofDecimal token.literal
  | expr (.string token value) =>
    token.kind = .string ∧ value = token.literal ∧ '"' ∉ value.toList
  | expr (.array token _) => token.kind = .lbracket
  | expr (.hash token _) => token.kind = .lbrace
  | expr (.unary token operator _) =>
    token.kind ∈ unaryKinds ∧ operator = token.literal ∧ operator.toList = token.kind.text
  | expr (.binary token operator _ _) =>
    token.kind ∈ binaryKinds ∧ operator = token.literal ∧ operator.toList = token.kind.text
  | expr (.conditional token _ _ _) => token.kind = .kwIf
  | expr (.function token _ _) => token.kind = .kwFn
  | expr (.call token _ _) => token.kind = .lparen
  | expr (.index token _ _) => token.kind = .lbracket
  | stmt (.bind token _ _) => token.kind = .kwLet
  | stmt (.ret token _) => token.kind = .kwReturn
  | stmt (.expr token _) =>
    token.kind ≠ .kwLet ∧ token.kind ≠ .kwReturn ∧ token.kind ≠ .eof
  | block (.mk token _) => token.kind = .lbrace

/-- No node is named after the end token. -/
theorem Fits.kind_ne_eof {n : Node} (h : n.Fits) : n.token.kind ≠ .eof := by
  intro heof
  rcases n with e | s | b
  · cases e
    case boolean t value => cases value <;> simp_all [token, Expr.token, Fits]
    all_goals simp_all [token, Expr.token, Fits, unaryKinds, binaryKinds]
  · cases s <;> simp_all [token, Stmt.token, Fits]
  · cases b
    simp_all [token, Block.token, Fits]

end Tree.Node

mutual

theorem Expr.outlineOnto_eq : ∀ (e : Expr) (rest : List Outline.Line),
    e.outlineOnto rest = e.nodes.map Tree.Node.line ++ rest
  | .ident _, _ | .boolean _ _, _ | .integer _ _, _ | .float _ _, _ | .string _ _, _ => rfl
  | .array _ es, rest => by
    simp [Expr.outlineOnto, Expr.nodes, Tree.Node.line, Expr.outlineAllOnto_eq es]
  | .hash _ ps, rest => by
    simp [Expr.outlineOnto, Expr.nodes, Tree.Node.line, Expr.outlinePairsOnto_eq ps]
  | .unary _ _ e, rest => by
    simp [Expr.outlineOnto, Expr.nodes, Tree.Node.line, e.outlineOnto_eq]
  | .binary _ _ l r, rest => by
    simp [Expr.outlineOnto, Expr.nodes, Tree.Node.line, l.outlineOnto_eq, r.outlineOnto_eq]
  | .conditional _ c b none, rest => by
    simp [Expr.outlineOnto, Expr.nodes, Tree.Node.line, c.outlineOnto_eq, b.outlineOnto_eq]
  | .conditional _ c b (some a), rest => by
    simp [Expr.outlineOnto, Expr.nodes, Tree.Node.line, c.outlineOnto_eq, b.outlineOnto_eq,
      a.outlineOnto_eq]
  | .function _ ids b, rest => by
    have hids (rest : List Outline.Line) : ids.foldr Ident.outlineOnto rest =
        ids.map (fun id => Tree.Node.line (.expr (.ident id))) ++ rest := by
      induction ids with
      | nil => rfl
      | cons id ids ih => simp [Ident.outlineOnto, Tree.Node.line, ih]
    simp [Expr.outlineOnto, Expr.nodes, Tree.Node.line, b.outlineOnto_eq, hids,
      Function.comp_def]
  | .call _ f es, rest => by
    simp [Expr.outlineOnto, Expr.nodes, Tree.Node.line, f.outlineOnto_eq,
      Expr.outlineAllOnto_eq es]
  | .index _ e k, rest => by
    simp [Expr.outlineOnto, Expr.nodes, Tree.Node.line, e.outlineOnto_eq, k.outlineOnto_eq]
termination_by structural e => e

theorem Expr.outlineAllOnto_eq : ∀ (es : List Expr) (rest : List Outline.Line),
    Expr.outlineAllOnto es rest = (Expr.nodesAll es).map Tree.Node.line ++ rest
  | [], _ => rfl
  | e :: es, rest => by
    simp [Expr.outlineAllOnto, Expr.nodesAll, e.outlineOnto_eq, Expr.outlineAllOnto_eq es]
termination_by structural es => es

theorem Expr.outlinePairsOnto_eq : ∀ (ps : List (Expr × Expr)) (rest : List Outline.Line),
    Expr.outlinePairsOnto ps rest = (Expr.nodesPairs ps).map Tree.Node.line ++ rest
  | [], _ => rfl
  | (key, value) :: ps, rest => by
    simp [Expr.outlinePairsOnto, Expr.nodesPairs, key.outlineOnto_eq, value.outlineOnto_eq,
      Expr.outlinePairsOnto_eq ps]
termination_by structural ps => ps

theorem Stmt.outlineOnto_eq : ∀ (s : Stmt) (rest : List Outline.Line),
    s.outlineOnto rest = s.nodes.map Tree.Node.line ++ rest
  | .bind _ _ e, rest => by
    simp [Stmt.outlineOnto, Stmt.nodes, Tree.Node.line, Ident.outlineOnto, e.outlineOnto_eq]
  | .ret _ none, _ => rfl
  | .ret _ (some e), rest => by
    simp [Stmt.outlineOnto, Stmt.nodes, Tree.Node.line, e.outlineOnto_eq]
  | .expr _ e, rest => by
    simp [Stmt.outlineOnto, Stmt.nodes, Tree.Node.line, e.outlineOnto_eq]
termination_by structural s => s

theorem Stmt.outlineAllOnto_eq : ∀ (ss : List Stmt) (rest : List Outline.Line),
    Stmt.outlineAllOnto ss rest = (Stmt.nodesAll ss).map Tree.Node.line ++ rest
  | [], _ => rfl
  | s :: ss, rest => by
    simp [Stmt.outlineAllOnto, Stmt.nodesAll, s.outlineOnto_eq, Stmt.outlineAllOnto_eq ss]
termination_by structural ss => ss

theorem Block.outlineOnto_eq : ∀ (b : Block) (rest : List Outline.Line),
    b.outlineOnto rest = b.nodes.map Tree.Node.line ++ rest
  | .mk _ ss, rest => by
    simp [Block.outlineOnto, Block.nodes, Tree.Node.line, Stmt.outlineAllOnto_eq ss]
termination_by structural b => b

end

/-- The outline of a program has a line for each node. -/
theorem Program.outline_eq (p : Program) : p.outline = p.nodes.map Tree.Node.line := by
  rw [Program.outline, Stmt.outlineAllOnto_eq, List.append_nil, Program.nodes]

end Monkey
