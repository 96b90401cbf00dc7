import Monkey.Diagnostic
import Monkey.Number.Binary64
import Monkey.Number.Integer
import Monkey.Token.Scan
import Monkey.Tree

/-!
# Parsing

A parser looks at the current token and at the one after it. It gives a tree
and stands on the tree's last token, or gives none after reporting why. Binary
operators are read by precedence: `Parser.operators` goes on as long as the
next operator binds tighter than the one to the left.

A malformed statement does not end parsing. `Parser.recover` skips what is left
of it, and the statements around it are read as usual, so one pass reports the
faults of the whole text. A program that comes with diagnostics is not meant to
be run.

The first argument of the recursive parsers bounds how deeply they nest. Each
round of them takes at least one token, so `Parser.State.reach`, a multiple of
the number of tokens, is never used up.
-/

namespace Monkey

namespace Parser

/-- Where a parser stands and what it has found so far. -/
structure State where
  /-- The tokens from the current one on, without the end token. -/
  ahead : List Token
  eof : Token
  /-- How many blocks have been entered and not left. -/
  openBlocks : Nat
  /-- Diagnostics, the latest first. -/
  reported : List Diagnostic

namespace State

/-- Stands on the first token of a text. -/
def ofStream (s : TokenStream) : State := ⟨s.tokens, s.eof, 0, []⟩

/-- The token a parser stands on. -/
def current (s : State) : Token := s.ahead.headD s.eof

/-- The token after the current one. -/
def next (s : State) : Token := s.ahead.tail.headD s.eof

/-- Moves to the next token. The end token is never left. -/
def advance (s : State) : State := { s with ahead := s.ahead.tail }

/-- Adds a diagnostic. -/
def report (s : State) (d : Diagnostic) : State := { s with reported := d :: s.reported }

/-- Enters a block. -/
def enter (s : State) : State := { s with openBlocks := s.openBlocks + 1 }

/-- Leaves a block. -/
def leave (s : State) : State := { s with openBlocks := s.openBlocks - 1 }

/-- Whether the statements of the innermost block, or of the program, end here. -/
def atEnd (s : State) : Bool :=
  s.current.kind == .eof || (s.current.kind == .rbrace && s.openBlocks > 0)

/-- How deeply a parse from here may nest. -/
def reach (s : State) : Nat := 8 * (s.ahead.length + 1)

end State

end Parser

/-- Reads part of a text. The state is kept also when there is no result. -/
abbrev Parser (α : Type) := OptionT (StateM Parser.State) α

namespace Parser

/-- The token a parser stands on. -/
def current : Parser Token := return (← get).current

/-- The token after the current one. -/
def next : Parser Token := return (← get).next

/-- Whether the token after the current one has a given kind. -/
def nextIs (kind : Token.Kind) : Parser Bool := return (← get).next.kind == kind

/-- Moves to the next token. -/
def advance : Parser Unit := modify State.advance

/-- Reports a diagnostic and gives no result. -/
def refuse {α : Type} (d : Diagnostic) : Parser α := do
  modify (·.report d)
  failure

/-- Refuses the current token where an expression is needed. -/
def refuseOperand {α : Type} : Parser α := do
  let token ← current
  refuse (if token.kind = .illegal then .illegal token else .noExpression token)

/-- Moves to the next token if it has the given kind, and refuses it otherwise. -/
def expect (kind : Token.Kind) : Parser Unit := do
  let token ← next
  if token.kind = kind then advance else refuse (.unexpected kind token)

/-- Takes the semicolon that ends a statement. It may be left out before a closing
brace and at the end of the text. -/
def terminator : Parser Unit := do
  let token ← next
  if token.kind = .semicolon then advance
  else if token.kind = .rbrace ∨ token.kind = .eof then pure ()
  else refuse (.unexpected .semicolon token)

/-- What is left after skipping the rest of a malformed statement. Stops after a
semicolon, and before the brace that closes the innermost block. A `let` or
`return` stops it too, unless it is the first token. -/
def skipStatement (inBlock : Bool) : (moved : Bool) → List Token → List Token
  | _, [] => []
  | moved, token :: rest =>
    if token.kind = .rbrace ∧ inBlock then token :: rest
    else if (token.kind = .kwLet ∨ token.kind = .kwReturn) ∧ moved then token :: rest
    else if token.kind = .semicolon then rest
    else skipStatement inBlock true rest

/-- Skips the rest of a malformed statement. -/
def recover (s : State) : State :=
  { s with ahead := skipStatement (s.openBlocks > 0) false s.ahead }

/-- How tightly an operator binds, the loosest first. -/
inductive Precedence where
  | lowest
  | equality
  | comparison
  | sum
  | product
  | unary
  | call
  | index
deriving DecidableEq, Repr

/-- Position in the order of binding. -/
def Precedence.level : Precedence → Nat
  | lowest => 0
  | equality => 1
  | comparison => 2
  | sum => 3
  | product => 4
  | unary => 5
  | call => 6
  | index => 7

/-- How tightly a token binds to the operand on its left. -/
def Precedence.ofKind : Token.Kind → Precedence
  | .eq => equality
  | .notEq => equality
  | .lt => comparison
  | .gt => comparison
  | .plus => sum
  | .minus => sum
  | .asterisk => product
  | .slash => product
  | .lparen => call
  | .lbracket => index
  | _ => lowest

/-- Reads the parameters after a first one, up to the closing parenthesis. -/
def moreParameters : Nat → Parser (List Ident)
  | 0 => refuseOperand
  | n + 1 => do
    if ← nextIs .comma then
      advance
      expect .ident
      let name ← current
      let names ← moreParameters n
      return Ident.ofToken name :: names
    else
      expect .rparen
      return []

/-- Reads a parameter list, from the opening parenthesis to the closing one. -/
def parameters (n : Nat) : Parser (List Ident) := do
  if ← nextIs .rparen then
    advance
    return []
  else
    expect .ident
    let name ← current
    let names ← moreParameters n
    return Ident.ofToken name :: names

mutual

/-- Reads an expression whose operators all bind tighter than `p`. -/
def expression : Nat → Precedence → Parser Expr
  | 0, _ => refuseOperand
  | n + 1, p => do
    let left ← operand n
    operators n p left
termination_by structural n => n

/-- Reads on after an operand: operators, calls and indexing that bind tighter than `p`. -/
def operators : Nat → Precedence → Expr → Parser Expr
  | 0, _, left => pure left
  | n + 1, p, left => do
    let token ← next
    if p.level < (Precedence.ofKind token.kind).level then
      advance
      let longer ← operation n token left
      operators n p longer
    else
      return left
termination_by structural n => n

/-- Reads one operator, call or index whose first token is the current one. -/
def operation : Nat → Token → Expr → Parser Expr
  | 0, _, _ => refuseOperand
  | n + 1, token, left => do
    if token.kind = .lparen then
      let arguments ← items n .rparen
      return .call token left arguments
    else if token.kind = .lbracket then
      advance
      let key ← expression n .lowest
      expect .rbracket
      return .index token left key
    else
      advance
      let right ← expression n (Precedence.ofKind token.kind)
      return .binary token token.literal left right
termination_by structural n => n

/-- Reads an expression up to its first operator, call or index. -/
def operand : Nat → Parser Expr
  | 0 => refuseOperand
  | n + 1 => do
    let token ← current
    match token.kind with
    | .ident => return .ident (Ident.ofToken token)
    | .int =>
      match Integer.ofDigits? token.literal with
      | some value => return .integer token value
      | none => refuse (.integerRange token)
    | .float => return .float token (Binary64.ofDecimal token.literal)
    | .string => return .string token token.literal
    | .kwTrue => return .boolean token true
    | .kwFalse => return .boolean token false
    | .minus | .bang =>
      advance
      let right ← expression n .unary
      return .unary token token.literal right
    | .lparen =>
      advance
      let inner ← expression n .lowest
      expect .rparen
      return inner
    | .lbracket =>
      let elements ← items n .rbracket
      return .array token elements
    | .lbrace =>
      let entries ← pairs n
      return .hash token entries
    | .kwIf => conditional n token
    | .kwFn =>
      expect .lparen
      let names ← parameters n
      expect .lbrace
      let body ← block n
      return .function token names body
    | _ => refuseOperand
termination_by structural n => n

/-- Reads a conditional whose `if` is the current token. -/
def conditional : Nat → Token → Parser Expr
  | 0, _ => refuseOperand
  | n + 1, token => do
    expect .lparen
    advance
    let condition ← expression n .lowest
    expect .rparen
    expect .lbrace
    let consequence ← block n
    if ← nextIs .kwElse then
      advance
      expect .lbrace
      let alternative ← block n
      return .conditional token condition consequence (some alternative)
    else
      return .conditional token condition consequence none
termination_by structural n => n

/-- Reads expressions between commas, from the token before them to the `close` after them. -/
def items : Nat → Token.Kind → Parser (List Expr)
  | 0, _ => refuseOperand
  | n + 1, close => do
    if ← nextIs close then
      advance
      return []
    else
      advance
      let first ← expression n .lowest
      let others ← moreItems n close
      return first :: others
termination_by structural n => n

/-- Reads the expressions after a first one, up to the `close` after them. -/
def moreItems : Nat → Token.Kind → Parser (List Expr)
  | 0, _ => refuseOperand
  | n + 1, close => do
    if ← nextIs .comma then
      advance
      advance
      let first ← expression n .lowest
      let others ← moreItems n close
      return first :: others
    else
      expect close
      return []
termination_by structural n => n

/-- Reads the pairs of a hash up to its closing brace. A comma may follow the last pair. -/
def pairs : Nat → Parser (List (Expr × Expr))
  | 0 => refuseOperand
  | n + 1 => do
    if ← nextIs .rbrace then
      advance
      return []
    else
      advance
      let key ← expression n .lowest
      expect .colon
      advance
      let value ← expression n .lowest
      unless ← nextIs .rbrace do
        expect .comma
      let others ← pairs n
      return (key, value) :: others
termination_by structural n => n

/-- Reads a block from its opening brace to the closing one. -/
def block : Nat → Parser Block
  | 0 => refuseOperand
  | n + 1 => do
    let brace ← current
    modify State.enter
    advance
    let body ← statements n
    modify State.leave
    let token ← current
    if token.kind = .eof then
      refuse (.unexpected .rbrace token)
    else
      return .mk brace body
termination_by structural n => n

/-- Reads statements up to the end of the innermost block, or of the text. -/
def statements : Nat → StateM State (List Stmt)
  | 0 => pure []
  | n + 1 => do
    if (← get).atEnd then
      return []
    else
      match ← (statement n).run with
      | some first =>
        modify State.advance
        let others ← statements n
        return first :: others
      | none =>
        modify recover
        statements n
termination_by structural n => n

/-- Reads one statement and stands on its last token. -/
def statement : Nat → Parser Stmt
  | 0 => refuseOperand
  | n + 1 => do
    let token ← current
    match token.kind with
    | .kwLet =>
      expect .ident
      let name ← current
      expect .assign
      advance
      let value ← expression n .lowest
      terminator
      return .bind token (Ident.ofToken name) value
    | .kwReturn =>
      let following ← next
      if following.kind = .semicolon ∨ following.kind = .rbrace ∨ following.kind = .eof then
        terminator
        return .ret token none
      else
        advance
        let value ← expression n .lowest
        terminator
        return .ret token (some value)
    | _ =>
      let value ← expression n .lowest
      if ← nextIs .semicolon then
        advance
      return .expr token value
termination_by structural n => n

end

end Parser

/-- What parsing gives: a program, partial if there are diagnostics. -/
structure Parsed where
  program : Program
  diagnostics : List Diagnostic

/-- Parses the tokens of a text. -/
def TokenStream.parse (stream : TokenStream) : Parsed :=
  let start := Parser.State.ofStream stream
  let (statements, final) := (Parser.statements start.reach).run start
  ⟨⟨statements⟩, final.reported.reverse⟩

/-- Parses a source text. -/
def parse (source : String) : Parsed :=
  (Token.scan source).parse

end Monkey
