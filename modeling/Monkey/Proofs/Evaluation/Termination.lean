import Monkey.Proofs.Evaluation.Stepwise

/-!
# Every run ends

Started on any program, the machine that goes in single steps ends, with what the
evaluator gives (`walk_halts`). It does not matter what is stored, so this holds in
the middle of a session too, and for functions that call themselves or each other
or that are handed to themselves.

The argument is by induction on how many more calls may be nested, and for a fixed
number by induction on the tree. What is shown of each part is that the machine gets
to the point where the part's value is on top of the stack, which is as it was, with
as many calls open (`Leads`). The count of open calls and the number of further ones
always add up to the limit, so a body is entered only with a smaller number
(`leads_apply`). That the count is the number of calls on the stack, and that these
never exceed the limit, is `openCalls_le`.
-/

namespace Monkey.Stepwise

variable {e : Evaluator}

/-- From `p` the machine gets to `q`. -/
def Leads (e : Evaluator) (p q : Progress) : Prop := ∃ n, walk e n p = q

theorem walk_halted (n : Nat) (outcome : Outcome) (m : Machine) :
    walk e n (.halted outcome m) = .halted outcome m := by
  cases n <;> rfl

theorem walk_add (n k : Nat) (p : Progress) : walk e (n + k) p = walk e k (walk e n p) := by
  induction n generalizing p with
  | zero => simp [walk]
  | succ n ih =>
    rw [Nat.succ_add]
    cases p with
    | running c => exact ih (step e c)
    | halted outcome m => rw [walk_halted, walk_halted, walk_halted]

namespace Leads

theorem refl (p : Progress) : Leads e p p := ⟨0, rfl⟩

theorem trans {p q r : Progress} (h₁ : Leads e p q) (h₂ : Leads e q r) : Leads e p r := by
  obtain ⟨n, rfl⟩ := h₁
  obtain ⟨k, rfl⟩ := h₂
  exact ⟨n + k, walk_add n k p⟩

/-- One step, and then on. -/
theorem step {c : Config} {q : Progress} (h : Leads e (Stepwise.step e c) q) :
    Leads e (.running c) q := by
  obtain ⟨n, hn⟩ := h
  exact ⟨n + 1, hn⟩

end Leads

/-- Where the machine is once a part has been evaluated: it goes on with `k`, or the limit of
calls has been reached. -/
def after {α : Type} (e : Evaluator) (k : α → Machine → Progress) :
    EStateM.Result Abort Machine α → Progress
  | .ok a m => k a m
  | .error .callDepthExceeded m => .halted (.depthExceeded e.maxDepth) m

/-- A value is on top of the stack. -/
def gives (stack : List Pending) (depth : Nat) (v : Value) (m : Machine) : Progress :=
  .running ⟨.give v, stack, depth, m⟩

variable {α β : Type} {stack : List Pending} {depth : Nat} {m : Machine}

/-- A part that is evaluated first, and then the rest. -/
theorem leads_bind {p : Progress} {x : Eval α} {f : α → Eval β} {k : α → Machine → Progress}
    {l : β → Machine → Progress} (hx : Leads e p (after e k (x m)))
    (hf : ∀ a m', Leads e (k a m') (after e l (f a m'))) :
    Leads e p (after e l ((x >>= f) m)) := by
  show Leads e p (after e l (EStateM.bind x f m))
  unfold EStateM.bind
  rcases hr : x m with ⟨a, m'⟩ | ⟨_, m'⟩ <;> rw [hr] at hx
  · exact hx.trans (hf a m')
  · exact hx

/-- A frame waits for the value of a part. A signal goes past it, as `g` says. -/
theorem leads_frame {p : Progress} {f : Frame} {x : Eval Value} {k : Value → Eval β}
    {g : Value → β} {l : β → Machine → Progress}
    (hx : Leads e p (after e (gives (.frame f :: stack) depth) (x m)))
    (hk : ∀ v m', Leads e (.running (resume stack depth m' v f)) (after e l (k v m')))
    (hl : ∀ v m', l (g v) m' = gives stack depth v m') :
    Leads e p (after e l ((x >>= fun v => if v.isSignal then pure (g v) else k v) m)) := by
  refine leads_bind hx fun v m' => .step ?_
  show Leads e (if v.isSignal then _ else _) _
  cases v.isSignal with
  | true =>
    have hl' := hl v m'
    show Leads e (gives stack depth v m') (l (g v) m')
    rw [hl']
    exact .refl _
  | false => exact hk v m'

theorem leads_unlessSignal {p : Progress} {f : Frame} {x : Eval Value} {k : Value → Eval Value}
    (hx : Leads e p (after e (gives (.frame f :: stack) depth) (x m)))
    (hk : ∀ v m', Leads e (.running (resume stack depth m' v f))
      (after e (gives stack depth) (k v m'))) :
    Leads e p (after e (gives stack depth) (Eval.unlessSignal x k m)) :=
  leads_frame (g := id) hx hk fun _ _ => rfl

/-! ## Looking up names -/

/-- A chain of scopes is looked through in as many steps as it has frames. -/
theorem leads_find (name : String) : ∀ frames : List Nat,
    Leads e (.running ⟨.lookUp name frames, stack, depth, m⟩)
      (gives stack depth (match m.store.find? name frames with
        | some v => v
        | none =>
          match e.library.find? name with
          | some f => .native f
          | none => (Fault.unboundName name).toValue) m)
  | [] => by
    refine .step ?_
    rw [step, Store.find?]
    cases e.library.find? name <;> exact .refl _
  | frame :: outer => by
    refine .step ?_
    rw [step, Store.find?]
    cases Bindings.get? name (m.store.bindings frame) with
    | some v => exact .refl _
    | none => exact leads_find name outer

theorem leads_lookUp (scope : Scope) (name : String) :
    Leads e (.running ⟨.lookUp name scope.chain, stack, depth, m⟩)
      (after e (gives stack depth) (Eval.lookUp e.library scope name m)) :=
  leads_find name scope.chain

/-! ## Trees -/

/-- The values of some expressions are there, after those of others, or a signal is. -/
def collects (purpose : Purpose) (before : List Value) (stack : List Pending) (depth : Nat) :
    Except Value (List Value) → Machine → Progress
  | .ok values, m => .running ⟨purpose.next (before ++ values), stack, depth, m⟩
  | .error signal, m => gives stack depth signal m

/-- All entries of a hash are there, or a signal is. -/
def files (stack : List Pending) (depth : Nat) :
    Except Value (List (HashKey × Value × Value)) → Machine → Progress
  | .ok entries, m => gives stack depth (.hash entries) m
  | .error signal, m => gives stack depth signal m

/-- What a call does is done in steps, whatever is on the stack. -/
def Callable (e : Evaluator) (depth : Nat) (apply : Apply) : Prop :=
  ∀ f arguments stack m, Leads e (.running ⟨.apply f arguments, stack, depth, m⟩)
    (after e (gives stack depth) (apply f arguments m))

variable {apply : Apply}

mutual

theorem leads_expr (h : Callable e depth apply) : ∀ (x : Expr) (scope : Scope)
    (stack : List Pending) (m : Machine), Leads e (.running ⟨.expr x scope, stack, depth, m⟩)
      (after e (gives stack depth) (x.eval e.library apply scope m))
  | .ident id, scope, stack, m => .step (leads_lookUp scope id.name)
  | .boolean _ _, _, _, _ | .integer _ _, _, _, _ | .float _ _, _, _, _ | .string _ _, _, _, _ =>
    .step (.refl _)
  | .function _ _ _, _, _, _ => .step (.refl _)
  | .array _ xs, scope, stack, m => by
    rw [Expr.eval]
    refine .step (leads_bind (leads_exprs h xs .elements [] scope stack m) fun r m' => ?_)
    cases r <;> exact .refl _
  | .hash _ ps, scope, stack, m => by
    rw [Expr.eval]
    refine .step (leads_bind (leads_pairs h ps [] scope stack m) fun r m' => ?_)
    cases r <;> exact .refl _
  | .unary _ op x, scope, stack, m => by
    rw [Expr.eval]
    exact .step (leads_unlessSignal (leads_expr h x scope _ m) fun v m' => .refl _)
  | .binary _ op l r, scope, stack, m => by
    rw [Expr.eval]
    refine .step (leads_unlessSignal (leads_expr h l scope _ m) fun a m' => ?_)
    exact leads_unlessSignal (leads_expr h r scope _ m') fun b m'' => .refl _
  | .conditional _ c b none, scope, stack, m => by
    rw [Expr.eval]
    refine .step (leads_unlessSignal (leads_expr h c scope _ m) fun v m' => ?_)
    rw [resume]
    split
    · exact leads_block h b _ stack _
    · exact .refl _
  | .conditional _ c b (some a), scope, stack, m => by
    rw [Expr.eval]
    refine .step (leads_unlessSignal (leads_expr h c scope _ m) fun v m' => ?_)
    rw [resume]
    split
    · exact leads_block h b _ stack _
    · exact leads_block h a _ stack _
  | .call _ f xs, scope, stack, m => by
    rw [Expr.eval]
    refine .step (leads_unlessSignal (leads_expr h f scope _ m) fun v m' => ?_)
    refine leads_bind (leads_exprs h xs (.arguments v) [] scope stack m') fun r m'' => ?_
    cases r with
    | ok values => exact h v values stack m''
    | error signal => exact .refl _
  | .index _ t k, scope, stack, m => by
    rw [Expr.eval]
    refine .step (leads_unlessSignal (leads_expr h t scope _ m) fun a m' => ?_)
    exact leads_unlessSignal (leads_expr h k scope _ m') fun b m'' => .refl _
termination_by structural x => x

theorem leads_exprs (h : Callable e depth apply) : ∀ (xs : List Expr) (purpose : Purpose)
    (before : List Value) (scope : Scope) (stack : List Pending) (m : Machine),
      Leads e (.running ⟨.exprs purpose before xs scope, stack, depth, m⟩)
        (after e (collects purpose before stack depth) (Expr.evalAll e.library apply xs scope m))
  | [], purpose, before, _, stack, m => by
    refine .step ?_
    show Leads e _ (.running ⟨purpose.next (before ++ []), stack, depth, m⟩)
    rw [List.append_nil]
    exact .refl _
  | x :: xs, purpose, before, scope, stack, m => by
    rw [Expr.evalAll]
    refine .step (leads_frame (leads_expr h x scope _ m) (fun v m' => ?_) fun _ _ => rfl)
    refine leads_bind (leads_exprs h xs purpose (before ++ [v]) scope stack m') fun r m'' => ?_
    cases r with
    | ok values =>
      show Leads e (.running ⟨purpose.next (before ++ [v] ++ values), stack, depth, m''⟩) _
      rw [List.append_assoc]
      exact .refl _
    | error signal => exact .refl _
termination_by structural xs => xs

theorem leads_pairs (h : Callable e depth apply) : ∀ (ps : List (Expr × Expr))
    (entries : List (HashKey × Value × Value)) (scope : Scope) (stack : List Pending)
    (m : Machine), Leads e (.running ⟨.pairs ps entries scope, stack, depth, m⟩)
      (after e (files stack depth) (Expr.evalPairs e.library apply ps entries scope m))
  | [], _, _, _, _ => .step (.refl _)
  | (k, v) :: ps, entries, scope, stack, m => by
    rw [Expr.evalPairs]
    refine .step (leads_frame (leads_expr h k scope _ m) (fun key m' => ?_) fun _ _ => rfl)
    rw [resume]
    cases key.hashKey? with
    | none => exact .refl _
    | some filed =>
      refine leads_frame (leads_expr h v scope _ m') (fun d m'' => ?_) fun _ _ => rfl
      exact leads_pairs h ps _ scope stack m''
termination_by structural ps => ps

theorem leads_stmt (h : Callable e depth apply) : ∀ (s : Stmt) (scope : Scope)
    (stack : List Pending) (m : Machine), Leads e (.running ⟨.stmt s scope, stack, depth, m⟩)
      (after e (gives stack depth) (s.eval e.library apply scope m))
  | .bind _ name x, scope, stack, m => by
    rw [Stmt.eval]
    exact .step (leads_unlessSignal (leads_expr h x scope _ m) fun v m' => .refl _)
  | .ret _ none, _, _, _ => .step (.refl _)
  | .ret _ (some x), scope, stack, m => by
    rw [Stmt.eval]
    exact .step (leads_unlessSignal (leads_expr h x scope _ m) fun v m' => .refl _)
  | .expr _ x, scope, stack, m => .step (leads_expr h x scope stack m)
termination_by structural s => s

theorem leads_stmts (h : Callable e depth apply) : ∀ (ss : List Stmt) (latest : Value)
    (scope : Scope) (stack : List Pending) (m : Machine),
      Leads e (.running ⟨.stmts ss latest scope, stack, depth, m⟩)
        (after e (gives stack depth) (Stmt.evalAll e.library apply ss latest scope m))
  | [], _, _, _, _ => .step (.refl _)
  | s :: ss, latest, scope, stack, m => by
    rw [Stmt.evalAll]
    refine .step (leads_unlessSignal (leads_stmt h s scope _ m) fun v m' => ?_)
    exact leads_stmts h ss v scope stack m'
termination_by structural ss => ss

theorem leads_block (h : Callable e depth apply) : ∀ (b : Block) (scope : Scope)
    (stack : List Pending) (m : Machine),
      Leads e (.running ⟨.stmts b.statements .null scope, stack, depth, m⟩)
        (after e (gives stack depth) (b.eval e.library apply scope m))
  | .mk _ ss, scope, stack, m => leads_stmts h ss .null scope stack m
termination_by structural b => b

end

/-! ## Calls -/

theorem enclose_bind (scope : Scope) (k : Scope → Eval α) :
    (Eval.enclose scope >>= k) m = k (m.enclose scope).1 (m.enclose scope).2 := rfl

theorem modify_bind (f : Machine → Machine) (k : PUnit → Eval α) :
    (modify f >>= k) m = k ⟨⟩ (f m) := rfl

/-- A body is run with one more call open and one fewer allowed. Where none is allowed, the
count of open calls is the limit. -/
theorem leads_applyClosure (f : Closure) {n : Nat} (hdepth : depth + n = e.maxDepth)
    (ih : ∀ k, depth + 1 + k = e.maxDepth → Callable e (depth + 1) (applyValue e.library k))
    (arguments : List Value) (stack : List Pending) (m : Machine) :
    Leads e (.running ⟨.apply (.function f) arguments, stack, depth, m⟩)
      (after e (gives stack depth) (applyValue e.library n (.function f) arguments m)) := by
  refine .step ?_
  rw [step, enterCall, applyValue.eq_def]
  dsimp only
  split
  · exact .refl _
  cases n with
  | zero =>
    rw [if_pos (by omega)]
    exact .refl _
  | succ n =>
    rw [if_neg (by omega)]
    dsimp only
    rw [enclose_bind, modify_bind]
    exact leads_bind (leads_block (ih n (by omega)) f.body _ (.call :: stack) _)
      fun v m' => .step (.refl _)

/-- Calls are done in steps as long as the open calls and the further ones make up the limit. -/
theorem leads_apply (n : Nat) : ∀ {depth : Nat}, depth + n = e.maxDepth →
    Callable e depth (applyValue e.library n) := by
  induction n using Nat.strongRecOn with
  | ind n ih =>
    intro depth hdepth v arguments stack m
    cases v with
    | function f =>
      exact leads_applyClosure f hdepth (fun k hk => ih k (by omega) hk) arguments stack m
    | _ =>
      rw [applyValue.eq_def]
      exact .step (.refl _)

/-! ## Open calls -/

/-- How many calls are open on a stack. -/
def openCalls : List Pending → Nat
  | [] => 0
  | .call :: stack => openCalls stack + 1
  | .frame _ :: stack => openCalls stack

/-- As many calls are open as are counted, beyond those that were counted at the start, and the
count is within the limit. -/
structure Counted (e : Evaluator) (base : Nat) (c : Config) : Prop where
  depth : c.depth = base + openCalls c.stack
  limit : c.depth ≤ e.maxDepth

/-- The same of a run that may have ended. -/
def Progress.Counted (e : Evaluator) (base : Nat) : Progress → Prop
  | .running c => Stepwise.Counted e base c
  | .halted _ _ => True

variable {base : Nat}

/-- Going on with no call opened or closed. -/
theorem Counted.of_eq {c c' : Config} (h : Counted e base c)
    (hc : c'.depth = c.depth ∧ openCalls c'.stack = openCalls c.stack) : Counted e base c' :=
  ⟨by rw [hc.1, hc.2, h.depth], hc.1 ▸ h.limit⟩

theorem openCalls_visit (m : Machine) (x : Expr) (scope : Scope) :
    (visit stack depth m x scope).depth = depth ∧
      openCalls (visit stack depth m x scope).stack = openCalls stack := by
  cases x <;> exact ⟨rfl, rfl⟩

theorem openCalls_resume (m : Machine) (v : Value) (f : Frame) :
    (resume stack depth m v f).depth = depth ∧
      openCalls (resume stack depth m v f).stack = openCalls stack := by
  cases f with
  | condition b alternative scope =>
    cases alternative <;> rw [resume] <;> split <;> exact ⟨rfl, rfl⟩
  | key x ps entries scope =>
    rw [resume]
    cases v.hashKey? <;> exact ⟨rfl, rfl⟩
  | _ => exact ⟨rfl, rfl⟩

theorem counted_enterCall {f : Value} {arguments : List Value}
    (h : Counted e base ⟨.apply f arguments, stack, depth, m⟩) :
    (enterCall e stack depth m arguments f).Counted e base := by
  cases f with
  | function f =>
    rw [enterCall]
    split
    · exact h.of_eq ⟨rfl, rfl⟩
    split
    · trivial
    · next hbelow => exact ⟨congrArg (· + 1) h.depth, Nat.lt_of_not_le hbelow⟩
  | _ => exact h.of_eq ⟨rfl, rfl⟩

theorem counted_handOver {v : Value} (h : Counted e base ⟨.give v, stack, depth, m⟩) :
    (handOver depth m v stack).Counted e base := by
  cases stack with
  | nil => trivial
  | cons pending stack =>
    cases pending with
    | call =>
      have hdepth : depth = base + (openCalls stack + 1) := h.depth
      exact ⟨by simp [hdepth], Nat.le_trans (Nat.sub_le _ _) h.limit⟩
    | frame f =>
      rw [handOver]
      split
      · exact h.of_eq ⟨rfl, rfl⟩
      · exact h.of_eq (openCalls_resume m v f)

/-- A step keeps the count right, and it opens a call only below the limit. -/
theorem counted_step {c : Config} (h : Counted e base c) : (step e c).Counted e base := by
  unfold step
  split
  case h_1 => exact h.of_eq (openCalls_visit _ _ _)
  case h_12 => split <;> exact h.of_eq ⟨rfl, rfl⟩
  case h_13 => split <;> exact h.of_eq ⟨rfl, rfl⟩
  case h_14 => exact counted_enterCall h
  case h_15 => exact counted_handOver h
  all_goals exact h.of_eq ⟨rfl, rfl⟩

theorem counted_walk : ∀ (n : Nat) {p : Progress}, p.Counted e base →
    (walk e n p).Counted e base
  | 0, _, h => h
  | n + 1, .running _, h => counted_walk n (counted_step h)
  | _ + 1, .halted _ _, _ => trivial

/-- At every point of a program's run the calls that are open are counted, and they are no
more than the limit. -/
theorem openCalls_le {p : Program} {scope : Scope} {n : Nat} {c : Config}
    (h : walk e n (.running (start p scope m)) = .running c) : openCalls c.stack ≤ e.maxDepth := by
  have hstart : Counted e 0 (start p scope m) := ⟨rfl, Nat.zero_le _⟩
  have hc : Counted e 0 c := by
    have := counted_walk n (p := .running (start p scope m)) hstart
    rwa [h] at this
  have hdepth := hc.depth
  rw [Nat.zero_add] at hdepth
  exact hdepth ▸ hc.limit

/-! ## Programs -/

/-- How a program ends, by how its statements do. -/
theorem runProgram_eq (e : Evaluator) (p : Program) (scope : Scope) (m : Machine) :
    e.runProgram p scope m =
      match Stmt.evalAll e.library e.apply p.statements .null scope m with
      | .ok v m' => (.value v.unwrapReturned, m')
      | .error .callDepthExceeded m' => (.depthExceeded e.maxDepth, m') := by
  show e.finish (EStateM.bind (Stmt.evalAll e.library e.apply p.statements .null scope)
    fun v => pure v.unwrapReturned) m = _
  unfold Evaluator.finish EStateM.bind
  cases Stmt.evalAll e.library e.apply p.statements .null scope m <;> rfl

/-- Where the machine halts if the part it was started on ends in a given way. -/
def ended (e : Evaluator) : EStateM.Result Abort Machine Value → Progress
  | .ok v m => .halted (.value v.unwrapReturned) m
  | .error .callDepthExceeded m => .halted (.depthExceeded e.maxDepth) m

theorem leads_ended {p : Progress} {r : EStateM.Result Abort Machine Value}
    (h : Leads e p (after e (gives [] depth) r)) : Leads e p (ended e r) := by
  cases r with
  | ok v m' => exact h.trans (.step (.refl _))
  | error _ m' => exact h

theorem leads_runProgram (e : Evaluator) (p : Program) (scope : Scope) (m : Machine) :
    Leads e (.running (start p scope m))
      (.halted (e.runProgram p scope m).1 (e.runProgram p scope m).2) := by
  have hcalls : Callable e 0 e.apply := leads_apply e.maxDepth (Nat.zero_add _)
  have hleads : Leads e (.running (start p scope m)) _ :=
    leads_ended (leads_stmts hcalls p.statements .null scope [] m)
  rw [runProgram_eq]
  rcases hr : Stmt.evalAll e.library e.apply p.statements .null scope m with ⟨v, m'⟩ | ⟨_, m'⟩ <;>
    rw [hr] at hleads <;> exact hleads

/-- The machine that goes in single steps ends on every program, whatever is stored, and with
what the evaluator gives: a value, or the report that calls nest too deeply. -/
theorem walk_halts (e : Evaluator) (p : Program) (scope : Scope) (m : Machine) :
    (∃ n, walk e n (.running (start p scope m)) =
        .halted (e.runProgram p scope m).1 (e.runProgram p scope m).2) ∧
      ((∃ v, (e.runProgram p scope m).1 = .value v) ∨
        (e.runProgram p scope m).1 = .depthExceeded e.maxDepth) := by
  have hcalls : Callable e 0 e.apply := leads_apply e.maxDepth (Nat.zero_add _)
  have hleads : Leads e (.running (start p scope m)) _ :=
    leads_stmts hcalls p.statements .null scope [] m
  rw [runProgram_eq]
  rcases hr : Stmt.evalAll e.library e.apply p.statements .null scope m with ⟨v, m'⟩ | ⟨_, m'⟩ <;>
    rw [hr] at hleads
  · exact ⟨hleads.trans (.step (.refl _)), .inl ⟨_, rfl⟩⟩
  · exact ⟨hleads, .inr rfl⟩

end Monkey.Stepwise
