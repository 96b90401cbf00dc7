import Monkey.Evaluator

/-!
# Evaluation in single steps

A machine with an explicit stack that runs programs one step at a time. A step is
bounded: it takes one node of a tree apart, hands a value to the frame on top of
the stack, looks into one frame of a chain of scopes, or makes one call. Nothing
here bounds how many steps there are. A call goes on with the body of the function
that is called, whatever its size, and the only thing that is counted is how many
calls are open (`Config.depth`), upwards from zero.

`walk` takes a number of steps. Whether some number of them is enough for every
program is a question about `step`, and it is answered in the module after this
one.
-/

namespace Monkey.Stepwise

/-- What the values of a list of expressions are for. -/
inductive Purpose where
  | elements
  | arguments (f : Value)

/-- What is left to do with a value once it is there. -/
inductive Frame where
  | operand (operator : String)
  | left (operator : String) (right : Expr) (scope : Scope)
  | right (operator : String) (left : Value)
  | condition (consequence : Block) (alternative : Option Block) (scope : Scope)
  | callee (arguments : List Expr) (scope : Scope)
  | item (purpose : Purpose) (before : List Value) (after : List Expr) (scope : Scope)
  | key (value : Expr) (after : List (Expr × Expr)) (entries : List (HashKey × Value × Value))
      (scope : Scope)
  | entry (filed : HashKey) (key : Value) (after : List (Expr × Expr))
      (entries : List (HashKey × Value × Value)) (scope : Scope)
  | target (key : Expr) (scope : Scope)
  | position (target : Value)
  | bind (name : String) (scope : Scope)
  | ret
  | statement (after : List Stmt) (scope : Scope)

/-- An entry of the stack: a frame, or a call that is open. -/
inductive Pending where
  | frame (f : Frame)
  | call

/-- What is done next. -/
inductive Control where
  | expr (e : Expr) (scope : Scope)
  | exprs (purpose : Purpose) (before : List Value) (es : List Expr) (scope : Scope)
  | pairs (ps : List (Expr × Expr)) (entries : List (HashKey × Value × Value)) (scope : Scope)
  | stmt (s : Stmt) (scope : Scope)
  | stmts (ss : List Stmt) (latest : Value) (scope : Scope)
  | lookUp (name : String) (frames : List Nat)
  | apply (f : Value) (arguments : List Value)
  /-- A value for the top of the stack. -/
  | give (v : Value)

/-- Where a run stands. -/
structure Config where
  control : Control
  stack : List Pending
  /-- How many calls are open. -/
  depth : Nat
  machine : Machine

/-- A run that goes on, or one that has ended. -/
inductive Progress where
  | running (c : Config)
  | halted (outcome : Outcome) (m : Machine)

/-- Goes on with the list of values that a purpose asked for. -/
def Purpose.next (values : List Value) : Purpose → Control
  | elements => .give (.array values)
  | arguments f => .apply f values

/-- Goes on with a block in a new scope. -/
def openBlock (b : Block) (scope : Scope) (stack : List Pending) (depth : Nat) (m : Machine) :
    Config :=
  let (inner, m) := m.enclose scope
  ⟨.stmts b.statements .null inner, stack, depth, m⟩

/-- Goes on with the first part of an expression. -/
def visit (stack : List Pending) (depth : Nat) (m : Machine) : Expr → Scope → Config
  | .ident id, scope => ⟨.lookUp id.name scope.chain, stack, depth, m⟩
  | .boolean _ value, _ => ⟨.give (.boolean value), stack, depth, m⟩
  | .integer _ value, _ => ⟨.give (.integer value), stack, depth, m⟩
  | .float _ value, _ => ⟨.give (.float value), stack, depth, m⟩
  | .string _ value, _ => ⟨.give (.string value), stack, depth, m⟩
  | .array _ elements, scope => ⟨.exprs .elements [] elements scope, stack, depth, m⟩
  | .hash _ pairs, scope => ⟨.pairs pairs [] scope, stack, depth, m⟩
  | .unary _ operator operand, scope =>
    ⟨.expr operand scope, .frame (.operand operator) :: stack, depth, m⟩
  | .binary _ operator left right, scope =>
    ⟨.expr left scope, .frame (.left operator right scope) :: stack, depth, m⟩
  | .conditional _ condition consequence alternative, scope =>
    ⟨.expr condition scope, .frame (.condition consequence alternative scope) :: stack, depth, m⟩
  | .function _ parameters body, scope =>
    let (f, m) := m.newClosure parameters body scope
    ⟨.give f, stack, depth, m⟩
  | .call _ callee arguments, scope =>
    ⟨.expr callee scope, .frame (.callee arguments scope) :: stack, depth, m⟩
  | .index _ target key, scope =>
    ⟨.expr target scope, .frame (.target key scope) :: stack, depth, m⟩

/-- Goes on with a value that is not a signal. -/
def resume (stack : List Pending) (depth : Nat) (m : Machine) (v : Value) : Frame → Config
  | .operand operator => ⟨.give (Value.unary operator v), stack, depth, m⟩
  | .left operator right scope =>
    ⟨.expr right scope, .frame (.right operator v) :: stack, depth, m⟩
  | .right operator left => ⟨.give (Value.binary operator left v), stack, depth, m⟩
  | .condition consequence alternative scope =>
    if v.isTruthy then openBlock consequence scope stack depth m
    else
      match alternative with
      | none => ⟨.give .null, stack, depth, m⟩
      | some block => openBlock block scope stack depth m
  | .callee arguments scope => ⟨.exprs (.arguments v) [] arguments scope, stack, depth, m⟩
  | .item purpose before after scope =>
    ⟨.exprs purpose (before ++ [v]) after scope, stack, depth, m⟩
  | .key value after entries scope =>
    match v.hashKey? with
    | none => ⟨.give (Fault.notHashable v.kind).toValue, stack, depth, m⟩
    | some filed =>
      ⟨.expr value scope, .frame (.entry filed v after entries scope) :: stack, depth, m⟩
  | .entry filed key after entries scope =>
    ⟨.pairs after (HashTable.insert filed (key, v) entries) scope, stack, depth, m⟩
  | .target key scope => ⟨.expr key scope, .frame (.position v) :: stack, depth, m⟩
  | .position target => ⟨.give (Value.index target v), stack, depth, m⟩
  | .bind name scope => ⟨.give .null, stack, depth, m.define scope name v⟩
  | .ret => ⟨.give (.returned v), stack, depth, m⟩
  | .statement after scope => ⟨.stmts after v scope, stack, depth, m⟩

variable (e : Evaluator)

/-- Calls a value. -/
def enterCall (stack : List Pending) (depth : Nat) (m : Machine) (arguments : List Value) :
    Value → Progress
  | .function f =>
    if f.parameters.length ≠ arguments.length then
      .running ⟨.give (Fault.wrongArity f.parameters.length arguments.length).toValue,
        stack, depth, m⟩
    else if e.maxDepth ≤ depth then
      .halted (.depthExceeded e.maxDepth) m
    else
      let (scope, m) := m.enclose f.scope
      .running ⟨.stmts f.body.statements .null scope, .call :: stack, depth + 1,
        m.defineAll scope ((f.parameters.map (·.name)).zip arguments)⟩
  | .native f =>
    let reply := e.library.call f arguments
    .running ⟨.give reply.value, stack, depth, m.print reply.printed⟩
  | other => .running ⟨.give (Fault.notFunction other.kind).toValue, stack, depth, m⟩

/-- Hands a value to the top of the stack. A signal goes past every frame up to a call. -/
def handOver (depth : Nat) (m : Machine) (v : Value) : List Pending → Progress
  | [] => .halted (.value v.unwrapReturned) m
  | .call :: stack => .running ⟨.give v.unwrapReturned, stack, depth - 1, m⟩
  | .frame f :: stack =>
    if v.isSignal then .running ⟨.give v, stack, depth, m⟩
    else .running (resume stack depth m v f)

/-- One step of a run. -/
def step : Config → Progress
  | ⟨.expr x scope, stack, depth, m⟩ => .running (visit stack depth m x scope)
  | ⟨.exprs purpose values [] _, stack, depth, m⟩ =>
    .running ⟨purpose.next values, stack, depth, m⟩
  | ⟨.exprs purpose before (x :: xs) scope, stack, depth, m⟩ =>
    .running ⟨.expr x scope, .frame (.item purpose before xs scope) :: stack, depth, m⟩
  | ⟨.pairs [] entries _, stack, depth, m⟩ => .running ⟨.give (.hash entries), stack, depth, m⟩
  | ⟨.pairs ((key, value) :: ps) entries scope, stack, depth, m⟩ =>
    .running ⟨.expr key scope, .frame (.key value ps entries scope) :: stack, depth, m⟩
  | ⟨.stmt (.bind _ name value) scope, stack, depth, m⟩ =>
    .running ⟨.expr value scope, .frame (.bind name.name scope) :: stack, depth, m⟩
  | ⟨.stmt (.ret _ none) _, stack, depth, m⟩ =>
    .running ⟨.give (.returned .null), stack, depth, m⟩
  | ⟨.stmt (.ret _ (some value)) scope, stack, depth, m⟩ =>
    .running ⟨.expr value scope, .frame .ret :: stack, depth, m⟩
  | ⟨.stmt (.expr _ x) scope, stack, depth, m⟩ => .running ⟨.expr x scope, stack, depth, m⟩
  | ⟨.stmts [] latest _, stack, depth, m⟩ => .running ⟨.give latest, stack, depth, m⟩
  | ⟨.stmts (s :: ss) _ scope, stack, depth, m⟩ =>
    .running ⟨.stmt s scope, .frame (.statement ss scope) :: stack, depth, m⟩
  | ⟨.lookUp name [], stack, depth, m⟩ =>
    match e.library.find? name with
    | some f => .running ⟨.give (.native f), stack, depth, m⟩
    | none => .running ⟨.give (Fault.unboundName name).toValue, stack, depth, m⟩
  | ⟨.lookUp name (frame :: outer), stack, depth, m⟩ =>
    match (m.store.bindings frame).get? name with
    | some v => .running ⟨.give v, stack, depth, m⟩
    | none => .running ⟨.lookUp name outer, stack, depth, m⟩
  | ⟨.apply f arguments, stack, depth, m⟩ => enterCall e stack depth m arguments f
  | ⟨.give v, stack, depth, m⟩ => handOver depth m v stack

/-- Takes a number of steps, fewer if the run ends before. -/
def walk : Nat → Progress → Progress
  | 0, p => p
  | n + 1, .running c => walk n (step e c)
  | _ + 1, .halted outcome m => .halted outcome m

/-- The start of a program's run. -/
def start (p : Program) (scope : Scope) (m : Machine) : Config :=
  ⟨.stmts p.statements .null scope, [], 0, m⟩

end Monkey.Stepwise
