import Monkey.Tree.Printer

/-!
# Trees without their tokens

A bare tree has the same nodes, names, operators and values as a tree, and the
same token in every place where a tree has one. Only a number keeps the text it
was written with, because that text is printed. Two trees with the same bare tree
differ in nothing but their tokens, and they are printed alike
(`Program.render_eq_of_bare_eq`).
-/

namespace Monkey

/-- A token of which nothing but the text is kept. -/
def Token.bare (text : String) : Token := ⟨.illegal, text, Location.start⟩

/-- A name without its token. -/
def Ident.bare (id : Ident) : Ident := ⟨Token.bare "", id.name⟩

mutual

/-- An expression without its tokens. -/
def Expr.bare : Expr → Expr
  | .ident id => .ident id.bare
  | .boolean _ value => .boolean (Token.bare "") value
  | .integer token value => .integer (Token.bare token.literal) value
  | .float token value => .float (Token.bare token.literal) value
  | .string _ value => .string (Token.bare "") value
  | .array _ elements => .array (Token.bare "") (Expr.bareAll elements)
  | .hash _ pairs => .hash (Token.bare "") (Expr.barePairs pairs)
  | .unary _ operator operand => .unary (Token.bare "") operator operand.bare
  | .binary _ operator left right => .binary (Token.bare "") operator left.bare right.bare
  | .conditional _ condition consequence none =>
    .conditional (Token.bare "") condition.bare consequence.bare none
  | .conditional _ condition consequence (some alternative) =>
    .conditional (Token.bare "") condition.bare consequence.bare (some alternative.bare)
  | .function _ parameters body =>
    .function (Token.bare "") (parameters.map Ident.bare) body.bare
  | .call _ callee arguments => .call (Token.bare "") callee.bare (Expr.bareAll arguments)
  | .index _ target key => .index (Token.bare "") target.bare key.bare
termination_by structural e => e

/-- Expressions without their tokens. -/
def Expr.bareAll : List Expr → List Expr
  | [] => []
  | e :: es => e.bare :: Expr.bareAll es
termination_by structural es => es

/-- Pairs without their tokens. -/
def Expr.barePairs : List (Expr × Expr) → List (Expr × Expr)
  | [] => []
  | (key, value) :: pairs => (key.bare, value.bare) :: Expr.barePairs pairs
termination_by structural pairs => pairs

/-- A statement without its tokens. -/
def Stmt.bare : Stmt → Stmt
  | .bind _ name value => .bind (Token.bare "") name.bare value.bare
  | .ret _ (some value) => .ret (Token.bare "") (some value.bare)
  | .ret _ none => .ret (Token.bare "") none
  | .expr _ expression => .expr (Token.bare "") expression.bare
termination_by structural s => s

/-- Statements without their tokens. -/
def Stmt.bareAll : List Stmt → List Stmt
  | [] => []
  | s :: ss => s.bare :: Stmt.bareAll ss
termination_by structural ss => ss

/-- A block without its tokens. -/
def Block.bare : Block → Block
  | .mk _ statements => .mk (Token.bare "") (Stmt.bareAll statements)
termination_by structural b => b

end

/-- A program without its tokens. -/
def Program.bare (p : Program) : Program := ⟨Stmt.bareAll p.statements⟩

theorem Ident.renderParameters_bare (ids : List Ident) :
    Ident.renderParameters (ids.map Ident.bare) = Ident.renderParameters ids := by
  have h : (ids.map Ident.bare).map (·.name) = ids.map (·.name) := by
    rw [List.map_map]
    rfl
  rw [Ident.renderParameters, h, Ident.renderParameters]

mutual

theorem Expr.render_bare : ∀ e : Expr, e.bare.render = e.render
  | .ident _ | .boolean _ _ | .integer _ _ | .float _ _ | .string _ _ => rfl
  | .array _ es => by simp only [Expr.bare, Expr.render, Expr.renderAll_bareAll es]
  | .hash _ ps => by simp only [Expr.bare, Expr.render, Expr.renderPairs_barePairs ps]
  | .unary _ _ e => by simp only [Expr.bare, Expr.render, e.render_bare]
  | .binary _ _ l r => by simp only [Expr.bare, Expr.render, l.render_bare, r.render_bare]
  | .conditional _ c b none => by simp only [Expr.bare, Expr.render, c.render_bare, b.render_bare]
  | .conditional _ c b (some a) => by
    simp only [Expr.bare, Expr.render, c.render_bare, b.render_bare, a.render_bare]
  | .function _ ids b => by
    simp only [Expr.bare, Expr.render, Ident.renderParameters_bare, b.render_bare]
  | .call _ f es => by
    simp only [Expr.bare, Expr.render, f.render_bare, Expr.renderAll_bareAll es]
  | .index _ e k => by simp only [Expr.bare, Expr.render, e.render_bare, k.render_bare]
termination_by structural e => e

theorem Expr.renderAll_bareAll : ∀ es, Expr.renderAll (Expr.bareAll es) = Expr.renderAll es
  | [] => rfl
  | e :: es => by
    simp only [Expr.bareAll, Expr.renderAll, e.render_bare, Expr.renderAll_bareAll es]
termination_by structural es => es

theorem Expr.renderPairs_barePairs :
    ∀ ps, Expr.renderPairs (Expr.barePairs ps) = Expr.renderPairs ps
  | [] => rfl
  | (k, v) :: ps => by
    simp only [Expr.barePairs, Expr.renderPairs, k.render_bare, v.render_bare,
      Expr.renderPairs_barePairs ps]
termination_by structural ps => ps

theorem Stmt.render_bare : ∀ s : Stmt, s.bare.render = s.render
  | .bind _ _ e => by simp only [Stmt.bare, Stmt.render, e.render_bare, Ident.bare]
  | .ret _ (some e) => by simp only [Stmt.bare, Stmt.render, e.render_bare]
  | .ret _ none => rfl
  | .expr _ e => by simp only [Stmt.bare, Stmt.render, e.render_bare]
termination_by structural s => s

theorem Stmt.renderAll_bareAll : ∀ ss, Stmt.renderAll (Stmt.bareAll ss) = Stmt.renderAll ss
  | [] => rfl
  | s :: ss => by
    simp only [Stmt.bareAll, Stmt.renderAll, s.render_bare, Stmt.renderAll_bareAll ss]
termination_by structural ss => ss

theorem Block.render_bare : ∀ b : Block, b.bare.render = b.render
  | .mk _ [] => rfl
  | .mk _ (s :: ss) => by
    simp only [Block.bare, Stmt.bareAll, Block.render, s.render_bare, Stmt.renderAll_bareAll ss]
termination_by structural b => b

end

/-- Trees that differ in nothing but their tokens are printed alike. -/
theorem Program.render_eq_of_bare_eq {p q : Program} (h : p.bare = q.bare) :
    p.render = q.render := by
  have hbare (p : Program) : p.bare.render = p.render :=
    congrArg blankSeparated (Stmt.renderAll_bareAll p.statements)
  rw [← hbare p, h, hbare q]

end Monkey
