import Monkey.Proofs.Parser.Recovery

/-!
# Tokens at other places

Nothing but the kinds and literals of tokens decides what a parser does. If every token is moved to
another place by a function `f`, the same tree is read with its tokens moved by `f`, and the same
diagnostics are reported about the moved tokens (`TokenStream.parse_relocate`). The function may
be any: it may move a text further down, or put all tokens at one place.

What the parsers do themselves commutes with `f` if what they call does (`Call.allMove_body`).
Diagnostics that were there before stay where they are, so parsing also does not depend on what has
been reported (`Call.Ends.relocate`).
-/

namespace Monkey

/-- The same token at another place. -/
def Token.relocate (f : Location → Location) (t : Token) : Token :=
  { t with location := f t.location }

/-- The same name at another place. -/
def Ident.relocate (f : Location → Location) (id : Ident) : Ident :=
  { id with token := id.token.relocate f }

mutual

/-- The same expression at other places. -/
def Expr.relocate (f : Location → Location) : Expr → Expr
  | .ident id => .ident (id.relocate f)
  | .boolean token value => .boolean (token.relocate f) value
  | .integer token value => .integer (token.relocate f) value
  | .float token value => .float (token.relocate f) value
  | .string token value => .string (token.relocate f) value
  | .array token elements => .array (token.relocate f) (Expr.relocateAll f elements)
  | .hash token pairs => .hash (token.relocate f) (Expr.relocatePairs f pairs)
  | .unary token operator operand => .unary (token.relocate f) operator (operand.relocate f)
  | .binary token operator left right =>
    .binary (token.relocate f) operator (left.relocate f) (right.relocate f)
  | .conditional token condition consequence none =>
    .conditional (token.relocate f) (condition.relocate f) (consequence.relocate f) none
  | .conditional token condition consequence (some alternative) =>
    .conditional (token.relocate f) (condition.relocate f) (consequence.relocate f)
      (some (alternative.relocate f))
  | .function token parameters body =>
    .function (token.relocate f) (parameters.map (Ident.relocate f)) (body.relocate f)
  | .call token callee arguments =>
    .call (token.relocate f) (callee.relocate f) (Expr.relocateAll f arguments)
  | .index token target key => .index (token.relocate f) (target.relocate f) (key.relocate f)
termination_by structural e => e

/-- The same expressions at other places. -/
def Expr.relocateAll (f : Location → Location) : List Expr → List Expr
  | [] => []
  | e :: es => e.relocate f :: Expr.relocateAll f es
termination_by structural es => es

/-- The same pairs at other places. -/
def Expr.relocatePairs (f : Location → Location) : List (Expr × Expr) → List (Expr × Expr)
  | [] => []
  | (key, value) :: pairs => (key.relocate f, value.relocate f) :: Expr.relocatePairs f pairs
termination_by structural pairs => pairs

/-- The same statement at other places. -/
def Stmt.relocate (f : Location → Location) : Stmt → Stmt
  | .bind token name value => .bind (token.relocate f) (name.relocate f) (value.relocate f)
  | .ret token (some value) => .ret (token.relocate f) (some (value.relocate f))
  | .ret token none => .ret (token.relocate f) none
  | .expr token expression => .expr (token.relocate f) (expression.relocate f)
termination_by structural s => s

/-- The same statements at other places. -/
def Stmt.relocateAll (f : Location → Location) : List Stmt → List Stmt
  | [] => []
  | s :: ss => s.relocate f :: Stmt.relocateAll f ss
termination_by structural ss => ss

/-- The same block at other places. -/
def Block.relocate (f : Location → Location) : Block → Block
  | .mk token statements => .mk (token.relocate f) (Stmt.relocateAll f statements)
termination_by structural b => b

end

/-- The same program at other places. -/
def Program.relocate (f : Location → Location) (p : Program) : Program :=
  ⟨Stmt.relocateAll f p.statements⟩

/-- The same diagnostic about a token at another place. -/
def Diagnostic.relocate (f : Location → Location) : Diagnostic → Diagnostic
  | unexpected expected found => unexpected expected (found.relocate f)
  | noExpression found => noExpression (found.relocate f)
  | illegal found => illegal (found.relocate f)
  | integerRange found => integerRange (found.relocate f)

/-- The same tokens at other places. -/
def TokenStream.relocate (f : Location → Location) (stream : TokenStream) : TokenStream :=
  ⟨stream.tokens.map (Token.relocate f), stream.eof.relocate f⟩

namespace Parser

variable {f : Location → Location} {base : List Diagnostic} {α β γ δ : Type}

/-- The same state at other places, where other diagnostics have been reported before. -/
def State.relocate (f : Location → Location) (base : List Diagnostic) (s : State) : State :=
  ⟨s.ahead.map (Token.relocate f), s.eof.relocate f, s.openBlocks,
    s.reported.map (Diagnostic.relocate f) ++ base⟩

namespace State

theorem current_relocate (s : State) : (s.relocate f base).current = s.current.relocate f := by
  simp only [current, relocate, List.headD_eq_head?_getD, List.head?_map, Option.getD_map]

theorem next_relocate (s : State) : (s.relocate f base).next = s.next.relocate f := by
  simp only [next, relocate, List.headD_eq_head?_getD, ← List.map_tail, List.head?_map,
    Option.getD_map]

theorem advance_relocate (s : State) : (s.relocate f base).advance = s.advance.relocate f base := by
  simp only [advance, relocate, List.map_tail]

theorem atEnd_relocate (s : State) : (s.relocate f base).atEnd = s.atEnd := by
  rw [atEnd, current_relocate]
  rfl

end State

theorem skipStatement_map_relocate (inBlock moved : Bool) (ts : List Token) :
    skipStatement inBlock moved (ts.map (Token.relocate f)) =
      (skipStatement inBlock moved ts).map (Token.relocate f) := by
  fun_induction skipStatement inBlock moved ts with
  | case1 => rfl
  | case2 moved token rest h => exact if_pos h
  | case3 moved token rest h h' => exact (if_neg h).trans (if_pos h')
  | case4 moved token rest h h' h'' =>
    exact (if_neg h).trans ((if_neg h').trans (if_pos h''))
  | case5 moved token rest h h' h'' ih =>
    exact (if_neg h).trans ((if_neg h').trans ((if_neg h'').trans ih))

theorem recover_relocate (s : State) :
    recover (s.relocate f base) = (recover s).relocate f base := by
  rw [recover, State.relocate, skipStatement_map_relocate]
  rfl

variable (f base) in
/-- What `y` does at the other places is what `x` does, and its result is `g` of that of `x`. -/
def Moves (g : α → β) (x : Parser α) (y : Parser β) : Prop :=
  ∀ s : State, exec y (s.relocate f base) = ((exec x s).1.map g, (exec x s).2.relocate f base)

namespace Moves

variable {g : α → β} {g' : γ → δ} {x : Parser α} {y : Parser β} {F : α → Parser γ}
  {G : β → Parser δ}

theorem pure {a : α} {b : β} (h : b = g a) : Moves f base g (Pure.pure a) (Pure.pure b) := by
  subst h
  exact fun _ => rfl

theorem bind (hx : Moves f base g x y) (hF : ∀ a, Moves f base g' (F a) (G (g a))) :
    Moves f base g' (x >>= F) (y >>= G) := by
  intro s
  rw [exec_bind, exec_bind, hx s]
  obtain ⟨_ | a, s₁⟩ := exec x s
  · rfl
  · exact hF a s₁

theorem ite {p q : Prop} [Decidable p] [Decidable q] {x' : Parser α} {y' : Parser β} (hpq : q ↔ p)
    (h : Moves f base g x y) (h' : Moves f base g x' y') :
    Moves f base g (if p then x else x') (if q then y else y') := by
  simp only [hpq]
  split
  · exact h
  · exact h'

theorem current : Moves f base (Token.relocate f) Parser.current Parser.current := by
  intro s
  show (some (s.relocate f base).current, s.relocate f base) = _
  rw [State.current_relocate]
  rfl

theorem next : Moves f base (Token.relocate f) Parser.next Parser.next := by
  intro s
  show (some (s.relocate f base).next, s.relocate f base) = _
  rw [State.next_relocate]
  rfl

theorem nextIs (kind : Token.Kind) : Moves f base id (Parser.nextIs kind) (Parser.nextIs kind) := by
  intro s
  show (some ((s.relocate f base).next.kind == kind), s.relocate f base) = _
  rw [State.next_relocate]
  rfl

theorem advance : Moves f base id Parser.advance Parser.advance := by
  intro s
  show (some (), (s.relocate f base).advance) = _
  rw [State.advance_relocate]
  rfl

theorem refuse (d : Diagnostic) : Moves f base g (Parser.refuse d) (Parser.refuse (d.relocate f)) :=
  fun _ => rfl

theorem refuseOperand : Moves f base g Parser.refuseOperand Parser.refuseOperand := by
  refine current.bind fun token => ?_
  show Moves f base g _ (Parser.refuse (if token.kind = .illegal then _ else _))
  split
  · exact refuse (.illegal token)
  · exact refuse (.noExpression token)

theorem expect (kind : Token.Kind) : Moves f base id (Parser.expect kind) (Parser.expect kind) :=
  next.bind fun token => ite Iff.rfl advance (refuse (.unexpected kind token))

theorem terminator : Moves f base id Parser.terminator Parser.terminator :=
  next.bind fun token => ite Iff.rfl advance (ite Iff.rfl (pure rfl)
    (refuse (.unexpected .semicolon token)))

end Moves

namespace Call

/-- The same call at other places. -/
def relocate (f : Location → Location) : {α : Type} → Call α → Call α
  | _, operators p left => operators p (left.relocate f)
  | _, operation token left => operation (token.relocate f) (left.relocate f)
  | _, conditional token => conditional (token.relocate f)
  | _, c => c

/-- What a call reads, with its tokens at other places. -/
def readAt (f : Location → Location) : {α : Type} → Call α → α → α
  | _, expression _ | _, operators _ _ | _, operation _ _ | _, operand | _, conditional _ =>
    Expr.relocate f
  | _, items _ | _, moreItems _ => Expr.relocateAll f
  | _, pairs => Expr.relocatePairs f
  | _, block => Block.relocate f
  | _, statements => Stmt.relocateAll f
  | _, statement => Stmt.relocate f
  | _, moreParameters => List.map (Ident.relocate f)

variable (f base) in
/-- Every call does the same at the other places. -/
def AllMove (call : Handler) : Prop :=
  ∀ (α : Type) (c : Call α), Moves f base (c.readAt f) (call α c) (call α (c.relocate f))

theorem skipToEnd_relocate (s : State) :
    skipToEnd (s.relocate f base) = (skipToEnd s).relocate f base := by
  rw [skipToEnd, State.current_relocate]
  show State.report (State.on _ ((s.ahead.map (Token.relocate f)).dropWhile _)) _ = _
  rw [List.dropWhile_map]
  rfl

theorem allMove_giveUp : AllMove f base giveUp := by
  intro α c
  cases c with
  | statements =>
    intro s
    show (some [], skipToEnd (s.relocate f base)) = _
    rw [skipToEnd_relocate]
    rfl
  | _ => exact Moves.refuseOperand

section

variable {call : Handler}

theorem moves_parametersBefore (h : AllMove f base call) :
    Moves f base (List.map (Ident.relocate f)) (parametersBefore (call _ moreParameters))
      (parametersBefore (call _ moreParameters)) := by
  refine (Moves.nextIs _).bind fun _ => Moves.ite Iff.rfl ?_ ?_
  · exact Moves.advance.bind fun _ => Moves.pure rfl
  · exact (Moves.expect _).bind fun _ => Moves.current.bind fun _ =>
      (h _ moreParameters).bind fun _ => Moves.pure rfl

theorem moves_operand (h : AllMove f base call) :
    Moves f base (Expr.relocate f) (body call _ operand) (body call _ operand) := by
  refine Moves.current.bind fun token => ?_
  have hkind : (token.relocate f).kind = token.kind := rfl
  have hliteral : (token.relocate f).literal = token.literal := rfl
  rw [hkind, hliteral]
  cases token.kind
  case ident | float | string | kwTrue | kwFalse => exact Moves.pure rfl
  case int =>
    cases Integer.ofDigits? token.literal with
    | some value => exact Moves.pure rfl
    | none => exact Moves.refuse (.integerRange token)
  case minus | bang =>
    exact Moves.advance.bind fun _ => (h _ (expression .unary)).bind fun _ => Moves.pure rfl
  case lparen =>
    exact Moves.advance.bind fun _ => (h _ (expression .lowest)).bind fun _ =>
      (Moves.expect _).bind fun _ => Moves.pure rfl
  case lbracket => exact (h _ (items .rbracket)).bind fun _ => Moves.pure rfl
  case lbrace => exact (h _ pairs).bind fun _ => Moves.pure rfl
  case kwIf => exact h _ (conditional token)
  case kwFn =>
    exact (Moves.expect _).bind fun _ => (moves_parametersBefore h).bind fun _ =>
      (Moves.expect _).bind fun _ => (h _ block).bind fun _ => Moves.pure rfl
  all_goals exact Moves.refuseOperand

theorem moves_operation {token : Token} {left : Expr} (h : AllMove f base call) :
    Moves f base (Expr.relocate f) (body call _ (operation token left))
      (body call _ (operation (token.relocate f) (left.relocate f))) := by
  refine Moves.ite Iff.rfl ?_ (Moves.ite Iff.rfl ?_ ?_)
  · exact (h _ (items .rparen)).bind fun _ => Moves.pure rfl
  · exact Moves.advance.bind fun _ => (h _ (expression .lowest)).bind fun _ =>
      (Moves.expect _).bind fun _ => Moves.pure rfl
  · exact Moves.advance.bind fun _ => (h _ (expression _)).bind fun _ => Moves.pure rfl

theorem moves_conditional {token : Token} (h : AllMove f base call) :
    Moves f base (Expr.relocate f) (body call _ (conditional token))
      (body call _ (conditional (token.relocate f))) := by
  refine (Moves.expect _).bind fun _ => Moves.advance.bind fun _ =>
    (h _ (expression .lowest)).bind fun _ => (Moves.expect _).bind fun _ =>
    (Moves.expect _).bind fun _ => (h _ block).bind fun _ =>
    (Moves.nextIs _).bind fun _ => Moves.ite Iff.rfl ?_ (Moves.pure rfl)
  exact Moves.advance.bind fun _ => (Moves.expect _).bind fun _ =>
    (h _ block).bind fun _ => Moves.pure rfl

theorem moves_pairs (h : AllMove f base call) :
    Moves f base (Expr.relocatePairs f) (body call _ pairs) (body call _ pairs) := by
  refine (Moves.nextIs _).bind fun _ => Moves.ite Iff.rfl ?_ ?_
  · exact Moves.advance.bind fun _ => Moves.pure rfl
  refine Moves.advance.bind fun _ => (h _ (expression .lowest)).bind fun _ =>
    (Moves.expect _).bind fun _ => Moves.advance.bind fun _ =>
    (h _ (expression .lowest)).bind fun _ => (Moves.nextIs _).bind fun _ => Moves.ite Iff.rfl ?_ ?_
  · exact (h _ pairs).bind fun _ => Moves.pure rfl
  · exact (Moves.expect _).bind fun _ => (h _ pairs).bind fun _ => Moves.pure rfl

theorem moves_block (h : AllMove f base call) :
    Moves f base (Block.relocate f) (body call _ block) (body call _ block) := by
  intro s
  have hinside : (s.relocate f base).enter.advance = s.enter.advance.relocate f base :=
    State.advance_relocate s.enter
  rw [exec_body_block, exec_body_block, hinside,
    show exec (call _ statements) (s.enter.advance.relocate f base) = _ from h _ statements _]
  obtain ⟨_ | body, s₁⟩ := exec (call _ statements) s.enter.advance
  · rfl
  have hcurrent : (s₁.relocate f base).leave.current = s₁.leave.current.relocate f :=
    State.current_relocate s₁.leave
  have hbrace : (s.relocate f base).current = s.current.relocate f := State.current_relocate s
  dsimp only [Option.map_some]
  rw [hcurrent, hbrace]
  show (if s₁.leave.current.kind = .eof then _ else _) = _
  split <;> rfl

theorem moves_statements (h : AllMove f base call) :
    Moves f base (Stmt.relocateAll f) (body call _ statements) (body call _ statements) := by
  intro s
  rw [exec_body_statements, exec_body_statements, State.atEnd_relocate]
  split
  · rfl
  rw [show exec (call _ statement) (s.relocate f base) = _ from h _ statement s]
  obtain ⟨_ | first, s₁⟩ := exec (call _ statement) s
  · dsimp only [Option.map_none]
    rw [recover_relocate]
    exact h _ statements (recover s₁)
  · dsimp only [Option.map_some]
    rw [State.advance_relocate]
    have hrest : Moves f base (Stmt.relocateAll f) (do return first :: (← call _ statements))
        (do return first.relocate f :: (← call _ statements)) :=
      (h _ statements).bind fun _ => Moves.pure rfl
    exact hrest s₁.advance

theorem moves_statement (h : AllMove f base call) :
    Moves f base (Stmt.relocate f) (body call _ statement) (body call _ statement) := by
  refine Moves.current.bind fun token => ?_
  obtain ⟨kind, literal, location⟩ := token
  cases kind
  case kwLet =>
    exact (Moves.expect _).bind fun _ => Moves.current.bind fun _ => (Moves.expect _).bind fun _ =>
      Moves.advance.bind fun _ => (h _ (expression .lowest)).bind fun _ =>
      Moves.terminator.bind fun _ => Moves.pure rfl
  case kwReturn =>
    refine Moves.next.bind fun _ => Moves.ite Iff.rfl ?_ ?_
    · exact Moves.terminator.bind fun _ => Moves.pure rfl
    · exact Moves.advance.bind fun _ => (h _ (expression .lowest)).bind fun _ =>
        Moves.terminator.bind fun _ => Moves.pure rfl
  all_goals
    exact (h _ (expression .lowest)).bind fun _ => (Moves.nextIs _).bind fun _ =>
      Moves.ite Iff.rfl (Moves.advance.bind fun _ => Moves.pure rfl) (Moves.pure rfl)

theorem allMove_body (h : AllMove f base call) : AllMove f base (body call) := by
  intro α c
  cases c with
  | expression p => exact (h _ operand).bind fun left => h _ (operators p left)
  | operators p left =>
    refine Moves.next.bind fun token => Moves.ite Iff.rfl ?_ (Moves.pure rfl)
    exact Moves.advance.bind fun _ => (h _ (operation token left)).bind fun longer =>
      h _ (operators p longer)
  | operation token left => exact moves_operation h
  | operand => exact moves_operand h
  | conditional token => exact moves_conditional h
  | items close =>
    refine (Moves.nextIs _).bind fun _ => Moves.ite Iff.rfl ?_ ?_
    · exact Moves.advance.bind fun _ => Moves.pure rfl
    · exact Moves.advance.bind fun _ => (h _ (expression .lowest)).bind fun _ =>
        (h _ (moreItems close)).bind fun _ => Moves.pure rfl
  | moreItems close =>
    refine (Moves.nextIs _).bind fun _ => Moves.ite Iff.rfl ?_ ?_
    · exact Moves.advance.bind fun _ => Moves.advance.bind fun _ =>
        (h _ (expression .lowest)).bind fun _ => (h _ (moreItems close)).bind fun _ =>
          Moves.pure rfl
    · exact (Moves.expect _).bind fun _ => Moves.pure rfl
  | pairs => exact moves_pairs h
  | block => exact moves_block h
  | statements => exact moves_statements h
  | statement => exact moves_statement h
  | moreParameters =>
    refine (Moves.nextIs _).bind fun _ => Moves.ite Iff.rfl ?_ ?_
    · exact Moves.advance.bind fun _ => (Moves.expect _).bind fun _ => Moves.current.bind fun _ =>
        (h _ moreParameters).bind fun _ => Moves.pure rfl
    · exact (Moves.expect _).bind fun _ => Moves.pure rfl

end

/-- A call that ends does so with the tokens at other places, and reads the same there. -/
theorem Ends.relocate {c : Call α} {s : State} {r : Option α × State} (heof : s.eof.kind = .eof)
    (h : c.Ends s r) (f : Location → Location) (base : List Diagnostic) :
    (c.relocate f).Ends (s.relocate f base) (r.1.map (c.readAt f), r.2.relocate f base) := by
  have hends := (c.relocate f).ends_bounded (s := s.relocate f base) heof
  obtain ⟨call, hmove, hr, hr'⟩ := h.jointly (P := AllMove f base) allMove_giveUp
    (fun _ => allMove_body) hends
  rw [hr'] at hends
  rw [hr, ← allMove_body hmove α c s]
  exact hends

end Call

end Parser

open Monkey.Parser

/-- Where the tokens stand does not matter for what is parsed. -/
theorem TokenStream.parse_relocate {stream : TokenStream} (heof : stream.eof.kind = .eof)
    (f : Location → Location) :
    (stream.relocate f).parse =
      ⟨stream.parse.program.relocate f, stream.parse.diagnostics.map (Diagnostic.relocate f)⟩ := by
  obtain ⟨body, s, hends⟩ : ∃ body s, Call.statements.Ends (.ofStream stream) (some body, s) :=
    ⟨_, _, Call.statements.ends_bounded heof⟩
  have hmoved : Call.statements.Ends (.ofStream (stream.relocate f))
      (some (Stmt.relocateAll f body), s.relocate f []) := hends.relocate heof f []
  have heof' : (stream.relocate f).eof.kind = .eof := heof
  rw [parse_of_ends heof hends, parse_of_ends heof' hmoved]
  simp [Program.relocate, State.relocate]

end Monkey
