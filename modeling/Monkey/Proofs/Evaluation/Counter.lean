import Mathlib.Logic.Function.Iterate
import Monkey.Proofs.Evaluation.Termination

/-!
# The counter of open calls

An evaluator counts the calls that are open, up when a body is entered and down when it
is left, and the counter outlives the run. So it matters that it comes down again on
every way out of a call. If the limit is reached, the run does not halt at once: what is
on the stack is given up from the top, and each call that is given up counts down
(`Phase.unwinding`). `tick` is a step of the machine of single steps, or one of giving up.

The counter is always ahead of where it started by the number of calls on the stack, and
never above the limit (`counted_ticks`). Every evaluation is over at some point, whatever
the counter was at its start, and then the counter is what it was (`exists_endsIn`). A
program that is started with the counter at zero ends as the evaluator says
(`endsIn_runProgram`).
-/

namespace Monkey.Stepwise

/-- A run with its counter: it goes on, it is given up, or it is finished. -/
inductive Phase where
  | running (c : Config)
  /-- The limit has been reached, and what is on the stack gets no value. -/
  | unwinding (limit : Nat) (stack : List Pending) (depth : Nat) (m : Machine)
  | finished (outcome : Outcome) (depth : Nat) (m : Machine)

/-- The counter. -/
def Phase.depth : Phase → Nat
  | .running c => c.depth
  | .unwinding _ _ depth _ => depth
  | .finished _ depth _ => depth

/-- What follows a step from `c`. Where the machine of single steps halts at the limit, the
stack is still there. -/
def Phase.next (c : Config) : Progress → Phase
  | .running c' => .running c'
  | .halted (.value v) m => .finished (.value v) c.depth m
  | .halted (.depthExceeded limit) m => .unwinding limit c.stack c.depth m

variable (e : Evaluator)

/-- One step of a run, or of giving it up. -/
def tick : Phase → Phase
  | .running c => .next c (step e c)
  | .unwinding limit [] depth m => .finished (.depthExceeded limit) depth m
  | .unwinding limit (.call :: stack) depth m => .unwinding limit stack (depth - 1) m
  | .unwinding limit (.frame _ :: stack) depth m => .unwinding limit stack depth m
  | .finished outcome depth m => .finished outcome depth m

variable {e} {base depth : Nat} {stack : List Pending} {m : Machine}

/-! ## The counter is right -/

/-- As many calls are open as are counted, beyond those that were counted at the start, and the
count is within the limit. -/
def Phase.Counted (e : Evaluator) (base : Nat) : Phase → Prop
  | .running c => Stepwise.Counted e base c
  | .unwinding _ stack depth _ => depth = base + openCalls stack ∧ depth ≤ e.maxDepth
  | .finished _ depth _ => depth = base ∧ depth ≤ e.maxDepth

theorem Phase.Counted.depth_le {p : Phase} (h : p.Counted e base) : p.depth ≤ e.maxDepth := by
  cases p with
  | running c => exact h.limit
  | unwinding limit stack depth m => exact h.2
  | finished outcome depth m => exact h.2

/-- A run ends with a value only when nothing is left on the stack. -/
theorem stack_eq_nil_of_step {c : Config} {v : Value} {m' : Machine}
    (h : step e c = .halted (.value v) m') : c.stack = [] := by
  unfold step at h
  split at h
  case h_12 | h_13 => split at h <;> cases h
  case h_14 f arguments stack depth m =>
    cases f with
    | function f =>
      rw [enterCall] at h
      split at h
      · cases h
      · split at h <;> cases h
    | _ => cases h
  case h_15 v stack depth m =>
    cases stack with
    | nil => rfl
    | cons pending stack =>
      cases pending with
      | call => cases h
      | frame f =>
        rw [handOver] at h
        split at h <;> cases h
  all_goals cases h

/-- Going on and giving up both keep the counter right. -/
theorem counted_tick {p : Phase} (h : p.Counted e base) : (tick e p).Counted e base := by
  cases p with
  | running c =>
    have hstep := counted_step h
    rw [tick]
    cases hc : step e c with
    | running c' =>
      rw [hc] at hstep
      exact hstep
    | halted outcome m' =>
      cases outcome with
      | value v =>
        have hdepth := h.depth
        rw [stack_eq_nil_of_step hc] at hdepth
        exact ⟨hdepth, h.limit⟩
      | depthExceeded limit => exact ⟨h.depth, h.limit⟩
  | unwinding limit stack depth m =>
    obtain ⟨hdepth, hlimit⟩ := h
    cases stack with
    | nil => exact ⟨hdepth, hlimit⟩
    | cons pending stack =>
      cases pending with
      | call =>
        rw [openCalls] at hdepth
        exact ⟨by omega, by omega⟩
      | frame f => exact ⟨hdepth, hlimit⟩
  | finished outcome depth m => exact h

theorem counted_ticks {p : Phase} (h : p.Counted e base) (n : Nat) :
    ((tick e)^[n] p).Counted e base := by
  induction n with
  | zero => exact h
  | succ n ih =>
    rw [Function.iterate_succ_apply']
    exact counted_tick ih

/-! ## Every run is over at some point -/

/-- A run is over after some number of steps. -/
def EndsIn (e : Evaluator) (p : Phase) (outcome : Outcome) (depth : Nat) (m : Machine) : Prop :=
  ∃ n, (tick e)^[n] p = .finished outcome depth m

theorem EndsIn.of_tick {p : Phase} {outcome : Outcome} (h : EndsIn e (tick e p) outcome depth m) :
    EndsIn e p outcome depth m := by
  obtain ⟨n, hn⟩ := h
  exact ⟨n + 1, hn⟩

theorem ticks_finished (n : Nat) (outcome : Outcome) (depth : Nat) (m : Machine) :
    (tick e)^[n] (.finished outcome depth m) = .finished outcome depth m :=
  Function.iterate_fixed rfl n

/-- A run is over in one way only. -/
theorem EndsIn.unique {p : Phase} {outcome outcome' : Outcome} {depth' : Nat} {m' : Machine}
    (h : EndsIn e p outcome depth m) (h' : EndsIn e p outcome' depth' m') :
    outcome' = outcome ∧ depth' = depth ∧ m' = m := by
  obtain ⟨n, hn⟩ := h
  obtain ⟨n', hn'⟩ := h'
  have hsame : Phase.finished outcome depth m = .finished outcome' depth' m' := by
    rw [← ticks_finished n' outcome depth m, ← hn, ← Function.iterate_add_apply, Nat.add_comm,
      Function.iterate_add_apply, hn', ticks_finished]
  injection hsame with houtcome hdepth hm
  exact ⟨houtcome.symm, hdepth.symm, hm.symm⟩

theorem exists_endsIn_unwinding (limit : Nat) (stack : List Pending) (depth : Nat) (m : Machine) :
    ∃ depth', EndsIn e (.unwinding limit stack depth m) (.depthExceeded limit) depth' m := by
  induction stack generalizing depth with
  | nil => exact ⟨depth, 1, rfl⟩
  | cons pending stack ih =>
    cases pending with
    | call => exact (ih (depth - 1)).imp fun _ h => .of_tick h
    | frame f => exact (ih depth).imp fun _ h => .of_tick h

/-- Where the machine of single steps halts, the run is over once the stack has been given up. -/
theorem exists_endsIn_of_walk {n : Nat} {c : Config} {outcome : Outcome}
    (h : walk e n (.running c) = .halted outcome m) :
    ∃ depth, EndsIn e (.running c) outcome depth m := by
  induction n generalizing c with
  | zero => cases h
  | succ n ih =>
    have hwalk : walk e n (step e c) = .halted outcome m := h
    have hnext : ∃ depth, EndsIn e (.next c (step e c)) outcome depth m := by
      cases hc : step e c with
      | running c' =>
        rw [hc] at hwalk
        exact ih hwalk
      | halted outcome' m' =>
        rw [hc, walk_halted] at hwalk
        cases hwalk
        cases outcome with
        | value v => exact ⟨c.depth, 0, rfl⟩
        | depthExceeded limit => exact exists_endsIn_unwinding limit c.stack c.depth m
    exact hnext.imp fun _ h => .of_tick h

/-! ## Evaluations -/

/-- What can be evaluated on its own. -/
inductive Node where
  | program (p : Program)
  | stmt (s : Stmt)
  | expr (x : Expr)

/-- How the evaluation of a node begins. -/
def Node.control (scope : Scope) : Node → Control
  | program p => .stmts p.statements .null scope
  | stmt s => .stmt s scope
  | expr x => .expr x scope

/-- The start of an evaluation, with the counter where it is. The end is told as that of a
program, with a returned value unwrapped. -/
def Node.begin (node : Node) (scope : Scope) (depth : Nat) (m : Machine) : Phase :=
  .running ⟨node.control scope, [], depth, m⟩

theorem Node.counted_begin (node : Node) (scope : Scope) (m : Machine)
    (hdepth : depth ≤ e.maxDepth) : (node.begin scope depth m).Counted e depth :=
  ⟨rfl, hdepth⟩

theorem Node.exists_walk_halted (node : Node) (scope : Scope) (m : Machine)
    (hdepth : depth ≤ e.maxDepth) : ∃ n outcome m',
      walk e n (.running ⟨node.control scope, [], depth, m⟩) = .halted outcome m' := by
  have hcalls : Callable e depth (applyValue e.library (e.maxDepth - depth)) :=
    leads_apply _ (Nat.add_sub_cancel' hdepth)
  have hleads : ∃ r, Leads e (.running ⟨node.control scope, [], depth, m⟩) (ended e r) := by
    cases node with
    | program p => exact ⟨_, leads_ended (leads_stmts hcalls p.statements .null scope [] m)⟩
    | stmt s => exact ⟨_, leads_ended (leads_stmt hcalls s scope [] m)⟩
    | expr x => exact ⟨_, leads_ended (leads_expr hcalls x scope [] m)⟩
  obtain ⟨r, n, hn⟩ := hleads
  cases r with
  | ok v m' => exact ⟨n, _, _, hn⟩
  | error why m' => exact ⟨n, _, _, hn⟩

/-- Every evaluation is over at some point, with the counter where it was at the start. -/
theorem exists_endsIn (node : Node) (scope : Scope) (m : Machine)
    (hdepth : depth ≤ e.maxDepth) :
    ∃ outcome m', EndsIn e (node.begin scope depth m) outcome depth m' := by
  obtain ⟨n, outcome, m', hwalk⟩ := node.exists_walk_halted scope m hdepth
  obtain ⟨depth', k, hk⟩ := exists_endsIn_of_walk hwalk
  -- The counter at the end is told by the invariant, since then no call is open.
  have hcounted := counted_ticks (node.counted_begin scope m hdepth) k
  rw [show (tick e)^[k] (node.begin scope depth m) = _ from hk] at hcounted
  obtain ⟨rfl, -⟩ := hcounted
  exact ⟨outcome, m', k, hk⟩

/-- With the counter at zero, a program ends as the evaluator says. -/
theorem endsIn_runProgram (e : Evaluator) (p : Program) (scope : Scope) (m : Machine) :
    EndsIn e ((Node.program p).begin scope 0 m) (e.runProgram p scope m).1 0
      (e.runProgram p scope m).2 := by
  obtain ⟨n, hn⟩ := leads_runProgram e p scope m
  obtain ⟨depth, hends⟩ := exists_endsIn_of_walk hn
  obtain ⟨outcome, m', hzero⟩ := exists_endsIn (.program p) scope m (Nat.zero_le e.maxDepth)
  obtain ⟨-, rfl, -⟩ := EndsIn.unique hzero hends
  exact hends

end Monkey.Stepwise
