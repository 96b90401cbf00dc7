import Monkey.Tree.Parser

/-!
# Runs of a parser that give a tree

`Parser.Gives x s a s'` says that `x`, started in `s`, gives `a` and ends in `s'`.
For each parser there is one equation that says when it does: it names the parts
in the order in which they are read, the tokens between them, and the states in
which they start and end. Both directions are used. From left to right they take
a run apart, from right to left they put one together.

States are written as `s.on ts`, the state `s` with `ts` ahead, because a run
that reports nothing changes nothing else. `statements` never fails, so it has an
equation for its result (`readAll_succ`) in place of one for its success.
-/

namespace Monkey.Parser

namespace State

/-- The same state with other tokens ahead. -/
def on (s : State) (ts : List Token) : State := { s with ahead := ts }

variable (s : State) (t : Token) (ts : List Token)

@[simp] theorem openBlocks_on : (s.on ts).openBlocks = s.openBlocks := rfl

@[simp] theorem advance_on : (s.on (t :: ts)).advance = s.on ts := rfl

@[simp] theorem current_on : (s.on (t :: ts)).current = t := rfl

@[simp] theorem next_on (t' : Token) : (s.on (t :: t' :: ts)).next = t' := rfl

@[simp] theorem enter_on : (s.on ts).enter = s.enter.on ts := rfl

@[simp] theorem leave_on : (s.on ts).leave = s.leave.on ts := rfl

end State

variable {α β : Type} {s s' : State} {a : α} {b : β}

/-- What a parser makes of a state. -/
def exec (x : Parser α) (s : State) : Option α × State := (x.run.run s).run

/-- From `s` the parser `x` gives `a` and ends in `s'`. -/
def Gives (x : Parser α) (s : State) (a : α) (s' : State) : Prop :=
  exec x s = (some a, s')

theorem exec_pure (a : α) (s : State) : exec (pure a) s = (some a, s) := rfl

theorem exec_bind (x : Parser α) (f : α → Parser β) (s : State) :
    exec (x >>= f) s =
      (exec x s).1.elim (none, (exec x s).2) fun a => exec (f a) (exec x s).2 := by
  simp only [exec, OptionT.run_bind, Option.elimM, StateT.run_bind, Id.run_bind]
  obtain ⟨_ | a, s₁⟩ := (x.run.run s).run <;> rfl

theorem exec_refuse (d : Diagnostic) (s : State) :
    exec (refuse d : Parser α) s = (none, s.report d) := rfl

/-! ## Small steps -/

@[simp] theorem gives_pure {a' : α} : Gives (pure a') s a s' ↔ a = a' ∧ s' = s := by
  simp [Gives, exec_pure, eq_comm]

/-- A sequence gives a result if its parts do, one after the other. -/
@[simp] theorem gives_bind {x : Parser α} {f : α → Parser β} :
    Gives (x >>= f) s b s' ↔ ∃ a s₁, Gives x s a s₁ ∧ Gives (f a) s₁ b s' := by
  unfold Gives
  rw [exec_bind]
  obtain ⟨_ | a, s₁⟩ := exec x s
  · simp
  · simp [and_assoc]

@[simp] theorem gives_map {x : Parser α} {f : α → β} :
    Gives (f <$> x) s b s' ↔ ∃ a, Gives x s a s' ∧ b = f a := by
  rw [← bind_pure_comp, gives_bind]
  simp [← and_assoc]

@[simp] theorem gives_ite {c : Prop} [Decidable c] {x y : Parser α} :
    Gives (if c then x else y) s a s' ↔ if c then Gives x s a s' else Gives y s a s' := by
  split <;> rfl

@[simp] theorem gives_current {t : Token} : Gives current s t s' ↔ t = s.current ∧ s' = s := by
  have h : exec current s = (some s.current, s) := rfl
  simp [Gives, h, eq_comm]

@[simp] theorem gives_next {t : Token} : Gives next s t s' ↔ t = s.next ∧ s' = s := by
  have h : exec next s = (some s.next, s) := rfl
  simp [Gives, h, eq_comm]

@[simp] theorem gives_nextIs {kind : Token.Kind} {c : Bool} :
    Gives (nextIs kind) s c s' ↔ c = (s.next.kind == kind) ∧ s' = s := by
  have h : exec (nextIs kind) s = (some (s.next.kind == kind), s) := rfl
  simp [Gives, h, eq_comm]

@[simp] theorem gives_advance {u : Unit} : Gives advance s u s' ↔ s' = s.advance := by
  have h : exec advance s = (some (), s.advance) := rfl
  simp [Gives, h, eq_comm]

@[simp] theorem not_gives_refuse {d : Diagnostic} : ¬Gives (refuse d) s a s' := by
  simp [Gives, exec_refuse]

@[simp] theorem not_gives_refuseOperand : ¬Gives refuseOperand s a s' := by
  simp [refuseOperand]

@[simp] theorem gives_expect {kind : Token.Kind} {u : Unit} :
    Gives (expect kind) s u s' ↔ s.next.kind = kind ∧ s' = s.advance := by
  simp [expect, and_assoc]

/-- A terminator is a semicolon, or nothing before a closing brace or the end. -/
theorem gives_terminator {u : Unit} :
    Gives terminator s u s' ↔ (s.next.kind = .semicolon ∧ s' = s.advance) ∨
      ((s.next.kind = .rbrace ∨ s.next.kind = .eof) ∧ s' = s) := by
  simp only [terminator, gives_bind, gives_next, gives_ite, gives_advance, gives_pure,
    not_gives_refuse, and_assoc, exists_and_left, exists_eq_left]
  split
  · next h => simp [h]
  · next h => simp [h]

/-! ## Lists of names -/

theorem gives_moreParameters {n : Nat} {names : List Ident} :
    Gives (moreParameters (n + 1)) s names s' ↔
      if s.next.kind = .comma then
        s.advance.next.kind = .ident ∧ ∃ others,
          Gives (moreParameters n) s.advance.advance others s' ∧
            names = Ident.ofToken s.advance.advance.current :: others
      else s.next.kind = .rparen ∧ s' = s.advance ∧ names = [] := by
  rw [moreParameters]
  split <;> simp_all [and_assoc, and_comm]

theorem gives_parameters {n : Nat} {names : List Ident} :
    Gives (parameters n) s names s' ↔
      if s.next.kind = .rparen then s' = s.advance ∧ names = []
      else s.next.kind = .ident ∧ ∃ others, Gives (moreParameters n) s.advance others s' ∧
        names = Ident.ofToken s.advance.current :: others := by
  rw [parameters]
  split <;> simp_all [and_assoc, and_comm]

/-! ## Expressions -/

theorem gives_expression {n : Nat} {p : Precedence} {e : Expr} :
    Gives (expression (n + 1) p) s e s' ↔
      ∃ left s₁, Gives (operand n) s left s₁ ∧ Gives (operators n p left) s₁ e s' := by
  rw [expression, gives_bind]

theorem gives_operators_zero {p : Precedence} {left e : Expr} :
    Gives (operators 0 p left) s e s' ↔ e = left ∧ s' = s := by
  rw [operators, gives_pure]

theorem gives_operators {n : Nat} {p : Precedence} {left e : Expr} :
    Gives (operators (n + 1) p left) s e s' ↔
      if p.level < (Precedence.ofKind s.next.kind).level then
        ∃ longer s₁, Gives (operation n s.next left) s.advance longer s₁ ∧
          Gives (operators n p longer) s₁ e s'
      else e = left ∧ s' = s := by
  rw [operators]
  simp [and_assoc]

theorem gives_operation {n : Nat} {token : Token} {left e : Expr} :
    Gives (operation (n + 1) token left) s e s' ↔
      if token.kind = .lparen then
        ∃ arguments, Gives (items n .rparen) s arguments s' ∧ e = .call token left arguments
      else if token.kind = .lbracket then
        ∃ key s₁, Gives (expression n .lowest) s.advance key s₁ ∧
          s₁.next.kind = .rbracket ∧ s' = s₁.advance ∧ e = .index token left key
      else
        ∃ right, Gives (expression n (Precedence.ofKind token.kind)) s.advance right s' ∧
          e = .binary token token.literal left right := by
  rw [operation]
  split
  · simp
  split
  · simp [and_assoc]
  · simp

theorem gives_conditional {n : Nat} {token : Token} {e : Expr} :
    Gives (conditional (n + 1) token) s e s' ↔
      s.next.kind = .lparen ∧ ∃ condition s₁,
        Gives (expression n .lowest) s.advance.advance condition s₁ ∧
        s₁.next.kind = .rparen ∧ s₁.advance.next.kind = .lbrace ∧ ∃ consequence s₂,
          Gives (block n) s₁.advance.advance consequence s₂ ∧
          if s₂.next.kind = .kwElse then
            s₂.advance.next.kind = .lbrace ∧ ∃ alternative,
              Gives (block n) s₂.advance.advance alternative s' ∧
                e = .conditional token condition consequence (some alternative)
          else s' = s₂ ∧ e = .conditional token condition consequence none := by
  rw [conditional]
  simp [and_assoc, and_comm]

/-- What an operand is depends on the token it starts with. -/
theorem gives_operand {n : Nat} {e : Expr} :
    Gives (operand (n + 1)) s e s' ↔
      match s.current.kind with
      | .ident => e = .ident (Ident.ofToken s.current) ∧ s' = s
      | .int => ∃ value, Integer.ofDigits? s.current.literal = some value ∧
          e = .integer s.current value ∧ s' = s
      | .float => e = .float s.current (Binary64.ofDecimal s.current.literal) ∧ s' = s
      | .string => e = .string s.current s.current.literal ∧ s' = s
      | .kwTrue => e = .boolean s.current true ∧ s' = s
      | .kwFalse => e = .boolean s.current false ∧ s' = s
      | .minus | .bang => ∃ right, Gives (expression n .unary) s.advance right s' ∧
          e = .unary s.current s.current.literal right
      | .lparen => ∃ inner s₁, Gives (expression n .lowest) s.advance inner s₁ ∧
          s₁.next.kind = .rparen ∧ s' = s₁.advance ∧ e = inner
      | .lbracket => ∃ elements, Gives (items n .rbracket) s elements s' ∧
          e = .array s.current elements
      | .lbrace => ∃ entries, Gives (pairs n) s entries s' ∧ e = .hash s.current entries
      | .kwIf => Gives (conditional n s.current) s e s'
      | .kwFn => s.next.kind = .lparen ∧ ∃ names s₁, Gives (parameters n) s.advance names s₁ ∧
          s₁.next.kind = .lbrace ∧ ∃ body, Gives (block n) s₁.advance body s' ∧
            e = .function s.current names body
      | _ => False := by
  rw [operand]
  simp only [gives_bind, gives_current, and_assoc, exists_and_left, exists_eq_left]
  cases s.current.kind
  case int => cases Integer.ofDigits? s.current.literal <;> simp
  all_goals simp [and_assoc, and_comm]

theorem gives_items {n : Nat} {close : Token.Kind} {es : List Expr} :
    Gives (items (n + 1) close) s es s' ↔
      if s.next.kind = close then s' = s.advance ∧ es = []
      else ∃ first s₁, Gives (expression n .lowest) s.advance first s₁ ∧
        ∃ others, Gives (moreItems n close) s₁ others s' ∧ es = first :: others := by
  rw [items]
  split <;> simp_all [and_assoc]

theorem gives_moreItems {n : Nat} {close : Token.Kind} {es : List Expr} :
    Gives (moreItems (n + 1) close) s es s' ↔
      if s.next.kind = .comma then
        ∃ first s₁, Gives (expression n .lowest) s.advance.advance first s₁ ∧
          ∃ others, Gives (moreItems n close) s₁ others s' ∧ es = first :: others
      else s.next.kind = close ∧ s' = s.advance ∧ es = [] := by
  rw [moreItems]
  split <;> simp_all [and_assoc]

theorem gives_pairs {n : Nat} {entries : List (Expr × Expr)} :
    Gives (pairs (n + 1)) s entries s' ↔
      if s.next.kind = .rbrace then s' = s.advance ∧ entries = []
      else ∃ key s₁, Gives (expression n .lowest) s.advance key s₁ ∧ s₁.next.kind = .colon ∧
        ∃ value s₂, Gives (expression n .lowest) s₁.advance.advance value s₂ ∧
          if s₂.next.kind = .rbrace then
            ∃ others, Gives (pairs n) s₂ others s' ∧ entries = (key, value) :: others
          else
            s₂.next.kind = .comma ∧ ∃ others, Gives (pairs n) s₂.advance others s' ∧
              entries = (key, value) :: others := by
  rw [pairs]
  split <;> simp_all [and_assoc]

/-! ## Statements -/

/-- What `statements` makes of a state. -/
def readAll (n : Nat) (s : State) : List Stmt × State := ((statements n).run s).run

/-- Statements are read one by one up to the end. A malformed one is skipped. -/
theorem readAll_succ {n : Nat} :
    readAll (n + 1) s =
      if s.atEnd then ([], s)
      else match exec (statement n) s with
        | (some first, s₁) =>
          (first :: (readAll n s₁.advance).1, (readAll n s₁.advance).2)
        | (none, s₁) => readAll n (recover s₁) := by
  unfold readAll exec
  rw [statements]
  simp only [StateT.run_bind, StateT.run_get, pure_bind]
  split
  · rfl
  simp only [StateT.run_bind, Id.run_bind]
  generalize (StateT.run (OptionT.run (statement n)) s).run = r
  obtain ⟨_ | first, s₁⟩ := r <;> rfl

/-- A block is all that its statements give, unless the text ends before its brace. -/
theorem exec_block {n : Nat} :
    exec (block (n + 1)) s = match readAll n s.enter.advance with
      | (body, s₁) =>
        if s₁.leave.current.kind = .eof then
          (none, s₁.leave.report (.unexpected .rbrace s₁.leave.current))
        else (some (.mk s.current body), s₁.leave) := by
  have h : exec (block (n + 1)) s = match readAll n s.enter.advance with
      | (body, s₁) => exec (if s₁.leave.current.kind = .eof then
          refuse (.unexpected .rbrace s₁.leave.current)
        else pure (.mk s.current body)) s₁.leave := rfl
  rw [h]
  dsimp only
  split <;> rfl

theorem gives_block {n : Nat} {b : Block} :
    Gives (block (n + 1)) s b s' ↔ ∃ body s₁, readAll n s.enter.advance = (body, s₁) ∧
      s₁.leave.current.kind ≠ .eof ∧ b = .mk s.current body ∧ s' = s₁.leave := by
  unfold Gives
  rw [exec_block]
  obtain ⟨body, s₁⟩ := readAll n s.enter.advance
  dsimp only
  constructor
  · split
    · simp
    · next h =>
      intro hb
      simp only [Prod.mk.injEq, Option.some.injEq] at hb
      exact ⟨body, s₁, rfl, h, hb.1.symm, hb.2.symm⟩
  · rintro ⟨_, _, ⟨rfl, rfl⟩, h, rfl, rfl⟩
    rw [if_neg h]

theorem gives_statement {n : Nat} {st : Stmt} :
    Gives (statement (n + 1)) s st s' ↔
      match s.current.kind with
      | .kwLet => s.next.kind = .ident ∧ s.advance.next.kind = .assign ∧ ∃ value s₁,
          Gives (expression n .lowest) s.advance.advance.advance value s₁ ∧
            Gives terminator s₁ () s' ∧
            st = .bind s.current (Ident.ofToken s.advance.current) value
      | .kwReturn =>
        if s.next.kind = .semicolon ∨ s.next.kind = .rbrace ∨ s.next.kind = .eof then
          Gives terminator s () s' ∧ st = .ret s.current none
        else ∃ value s₁, Gives (expression n .lowest) s.advance value s₁ ∧
          Gives terminator s₁ () s' ∧ st = .ret s.current (some value)
      | _ => ∃ value s₁, Gives (expression n .lowest) s value s₁ ∧
          s' = (if s₁.next.kind = .semicolon then s₁.advance else s₁) ∧
          st = .expr s.current value := by
  rw [statement]
  simp only [gives_bind, gives_current, and_assoc, exists_and_left, exists_eq_left]
  cases s.current.kind
  case kwLet => simp [gives_terminator, and_assoc]
  case kwReturn => simp [gives_terminator, and_assoc]
  all_goals
    simp only [gives_bind]
    refine exists_congr fun value => exists_congr fun s₁ => and_congr_right fun _ => ?_
    by_cases h : s₁.next.kind = .semicolon <;> simp [h, and_comm]

/-- A statement that does not start with a keyword of statements is an expression. -/
theorem gives_statement_expr {n : Nat} {st : Stmt} (hl : s.current.kind ≠ .kwLet)
    (hr : s.current.kind ≠ .kwReturn) :
    Gives (statement (n + 1)) s st s' ↔ ∃ value s₁, Gives (expression n .lowest) s value s₁ ∧
      s' = (if s₁.next.kind = .semicolon then s₁.advance else s₁) ∧
        st = .expr s.current value := by
  rw [gives_statement]
  split
  · next h => exact absurd h hl
  · next h => exact absurd h hr
  · rfl

end Monkey.Parser
