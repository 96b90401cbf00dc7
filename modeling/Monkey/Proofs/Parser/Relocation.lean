import Monkey.Proofs.Parser.Placement

/-!
# Texts further down

A text that starts some lines further down gives the same tokens, trees and diagnostics, with
larger line numbers: `down k` adds `k` to the line of every token. Scanning commutes with it
because a newline counts the same from every line (`Token.scanFrom_down`). Parsing commutes
with it because it commutes with every change of places (`Call.Ends.down`).
-/

namespace Monkey

/-- The same place, `k` lines further down. -/
def Location.down (k : Nat) (l : Location) : Location := ⟨l.line + k, l.column⟩

/-- The same token, `k` lines further down. -/
def Token.down (k : Nat) (t : Token) : Token := { t with location := t.location.down k }

/-- The same name, `k` lines further down. -/
def Ident.down (k : Nat) (id : Ident) : Ident := { id with token := id.token.down k }

mutual

/-- The same expression, `k` lines further down. -/
def Expr.down (k : Nat) : Expr → Expr
  | .ident id => .ident (id.down k)
  | .boolean token value => .boolean (token.down k) value
  | .integer token value => .integer (token.down k) value
  | .float token value => .float (token.down k) value
  | .string token value => .string (token.down k) value
  | .array token elements => .array (token.down k) (Expr.downAll k elements)
  | .hash token pairs => .hash (token.down k) (Expr.downPairs k pairs)
  | .unary token operator operand => .unary (token.down k) operator (operand.down k)
  | .binary token operator left right =>
    .binary (token.down k) operator (left.down k) (right.down k)
  | .conditional token condition consequence none =>
    .conditional (token.down k) (condition.down k) (consequence.down k) none
  | .conditional token condition consequence (some alternative) =>
    .conditional (token.down k) (condition.down k) (consequence.down k) (some (alternative.down k))
  | .function token parameters body =>
    .function (token.down k) (parameters.map (Ident.down k)) (body.down k)
  | .call token callee arguments =>
    .call (token.down k) (callee.down k) (Expr.downAll k arguments)
  | .index token target key => .index (token.down k) (target.down k) (key.down k)
termination_by structural e => e

/-- The same expressions, `k` lines further down. -/
def Expr.downAll (k : Nat) : List Expr → List Expr
  | [] => []
  | e :: es => e.down k :: Expr.downAll k es
termination_by structural es => es

/-- The same pairs, `k` lines further down. -/
def Expr.downPairs (k : Nat) : List (Expr × Expr) → List (Expr × Expr)
  | [] => []
  | (key, value) :: pairs => (key.down k, value.down k) :: Expr.downPairs k pairs
termination_by structural pairs => pairs

/-- The same statement, `k` lines further down. -/
def Stmt.down (k : Nat) : Stmt → Stmt
  | .bind token name value => .bind (token.down k) (name.down k) (value.down k)
  | .ret token (some value) => .ret (token.down k) (some (value.down k))
  | .ret token none => .ret (token.down k) none
  | .expr token expression => .expr (token.down k) (expression.down k)
termination_by structural s => s

/-- The same statements, `k` lines further down. -/
def Stmt.downAll (k : Nat) : List Stmt → List Stmt
  | [] => []
  | s :: ss => s.down k :: Stmt.downAll k ss
termination_by structural ss => ss

/-- The same block, `k` lines further down. -/
def Block.down (k : Nat) : Block → Block
  | .mk token statements => .mk (token.down k) (Stmt.downAll k statements)
termination_by structural b => b

end

/-- The same diagnostic, `k` lines further down. -/
def Diagnostic.down (k : Nat) : Diagnostic → Diagnostic
  | unexpected expected found => unexpected expected (found.down k)
  | noExpression found => noExpression (found.down k)
  | illegal found => illegal (found.down k)
  | integerRange found => integerRange (found.down k)

theorem Stmt.downAll_eq_map (k : Nat) (ss : List Stmt) :
    Stmt.downAll k ss = ss.map (Stmt.down k) := by
  induction ss with
  | nil => rfl
  | cons s ss ih => rw [Stmt.downAll, ih, List.map_cons]

/-! ## Scanning -/

/-- The same tokens, `k` lines further down. -/
def TokenStream.down (k : Nat) (stream : TokenStream) : TokenStream :=
  ⟨stream.tokens.map (Token.down k), stream.eof.down k⟩

theorem Location.past_down (k : Nat) (l : Location) (c : Char) :
    (l.down k).past c = (l.past c).down k := by
  unfold past
  split
  · simp only [down, Nat.add_right_comm]
  · rfl

theorem Location.pastAll_down (k : Nat) (l : Location) (cs : List Char) :
    (l.down k).pastAll cs = (l.pastAll cs).down k := by
  induction cs generalizing l with
  | nil => rfl
  | cons c cs ih => rw [pastAll_cons, pastAll_cons, past_down, ih]

theorem Token.scanFrom_down (k : Nat) (l : Location) (cs : List Char) :
    scanFrom (l.down k) cs = (scanFrom l cs).down k := by
  fun_induction scanFrom l cs with
  | case1 => rw [scanFrom]; rfl
  | case2 l c cs hc ih => rw [scanFrom, if_pos hc, Location.past_down, ih]
  | case3 l c cs hc lexeme later ih =>
    rw [scanFrom, if_neg hc]
    show TokenStream.mk (_ :: (scanFrom ((l.down k).pastAll lexeme.extent) lexeme.rest).tokens)
      (scanFrom ((l.down k).pastAll lexeme.extent) lexeme.rest).eof = _
    rw [Location.pastAll_down, ih]
    rfl

/-! ## Parsing -/

mutual

theorem Expr.relocate_down (k : Nat) : ∀ e : Expr, e.relocate (.down k) = e.down k
  | .ident _ | .boolean _ _ | .integer _ _ | .float _ _ | .string _ _ => rfl
  | .array _ es => by rw [Expr.relocate, Expr.down, Expr.relocateAll_down k es]; rfl
  | .hash _ ps => by rw [Expr.relocate, Expr.down, Expr.relocatePairs_down k ps]; rfl
  | .unary _ _ e => by rw [Expr.relocate, Expr.down, e.relocate_down k]; rfl
  | .binary _ _ l r => by rw [Expr.relocate, Expr.down, l.relocate_down k, r.relocate_down k]; rfl
  | .conditional _ c b none => by
    rw [Expr.relocate, Expr.down, c.relocate_down k, b.relocate_down k]; rfl
  | .conditional _ c b (some a) => by
    rw [Expr.relocate, Expr.down, c.relocate_down k, b.relocate_down k, a.relocate_down k]; rfl
  | .function _ _ b => by rw [Expr.relocate, Expr.down, b.relocate_down k]; rfl
  | .call _ f es => by
    rw [Expr.relocate, Expr.down, f.relocate_down k, Expr.relocateAll_down k es]; rfl
  | .index _ e key => by rw [Expr.relocate, Expr.down, e.relocate_down k, key.relocate_down k]; rfl
termination_by structural e => e

theorem Expr.relocateAll_down (k : Nat) : ∀ es, Expr.relocateAll (.down k) es = Expr.downAll k es
  | [] => rfl
  | e :: es => by
    rw [Expr.relocateAll, Expr.downAll, e.relocate_down k, Expr.relocateAll_down k es]
termination_by structural es => es

theorem Expr.relocatePairs_down (k : Nat) :
    ∀ ps, Expr.relocatePairs (.down k) ps = Expr.downPairs k ps
  | [] => rfl
  | (key, value) :: ps => by
    rw [Expr.relocatePairs, Expr.downPairs, key.relocate_down k, value.relocate_down k,
      Expr.relocatePairs_down k ps]
termination_by structural ps => ps

theorem Stmt.relocate_down (k : Nat) : ∀ s : Stmt, s.relocate (.down k) = s.down k
  | .bind _ _ e => by rw [Stmt.relocate, Stmt.down, e.relocate_down k]; rfl
  | .ret _ none => rfl
  | .ret _ (some e) => by rw [Stmt.relocate, Stmt.down, e.relocate_down k]; rfl
  | .expr _ e => by rw [Stmt.relocate, Stmt.down, e.relocate_down k]; rfl
termination_by structural s => s

theorem Stmt.relocateAll_down (k : Nat) : ∀ ss, Stmt.relocateAll (.down k) ss = Stmt.downAll k ss
  | [] => rfl
  | s :: ss => by
    rw [Stmt.relocateAll, Stmt.downAll, s.relocate_down k, Stmt.relocateAll_down k ss]
termination_by structural ss => ss

theorem Block.relocate_down (k : Nat) : ∀ b : Block, b.relocate (.down k) = b.down k
  | .mk _ ss => by rw [Block.relocate, Block.down, Stmt.relocateAll_down k ss]; rfl
termination_by structural b => b

end

theorem Diagnostic.relocate_down (k : Nat) (d : Diagnostic) : d.relocate (.down k) = d.down k := by
  cases d <;> rfl

namespace Parser

/-- The same state, `k` lines further down, where other diagnostics have been reported before. -/
def State.down (k : Nat) (base : List Diagnostic) (s : State) : State :=
  ⟨s.ahead.map (Token.down k), s.eof.down k, s.openBlocks,
    s.reported.map (Diagnostic.down k) ++ base⟩

theorem State.relocate_down (k : Nat) (base : List Diagnostic) (s : State) :
    s.relocate (.down k) base = s.down k base := by
  have hreported := List.map_congr_left fun d (_ : d ∈ s.reported) => d.relocate_down k
  rw [State.relocate, State.down, hreported]
  rfl

/-- The loop over statements ends further down, and reads the same there. -/
theorem Call.Ends.down {s : State} {r : Option (List Stmt) × State} (heof : s.eof.kind = .eof)
    (h : Call.statements.Ends s r) (k : Nat) (base : List Diagnostic) :
    Call.statements.Ends (s.down k base) (r.1.map (Stmt.downAll k), r.2.down k base) := by
  have hmoved := h.relocate heof (.down k) base
  rw [State.relocate_down, State.relocate_down] at hmoved
  rwa [show Stmt.downAll k = Call.statements.readAt (.down k) from
    funext fun ss => (Stmt.relocateAll_down k ss).symm]

end Parser

end Monkey
