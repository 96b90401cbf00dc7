import Monkey.Proofs.Evaluation.Counter
import Monkey.Proofs.Evaluation.Lockstep
import Monkey.Proofs.Evaluation.Signals

/-!
# Scopes follow the nesting of the source

The chain of the scope in which a node is evaluated has a frame for each body and each branch
around the node in its program, and one more. How deep calls are nested does not matter, nor by
which way a function got to where it is called, because a body is entered inside the scope where
the function was made.

What is around a node in its program is told by marks: a run of the marked programs stands at the
same node at each step, and the mark on it is the one for the scope that it is evaluated in
(`Session.chain_follows_nesting`). So no scope is deeper than the programs nest, and looking up
a name takes no more steps than that.
-/

namespace Monkey

/-- How many bodies and branches there are inside each other at most, in any of some programs. -/
def deepestNesting : List Program → Nat
  | [] => 0
  | p :: ps => max p.nesting (deepestNesting ps)

theorem nesting_le_deepestNesting {p : Program} {ps : List Program} (h : p ∈ ps) :
    p.nesting ≤ deepestNesting ps := by
  induction ps with
  | nil => cases h
  | cons q ps ih =>
    rcases List.mem_cons.mp h with rfl | h
    · exact Nat.le_max_left _ _
    · exact Nat.le_trans (ih h) (Nat.le_max_right _ _)

/-- Any marks and any names, but no more bodies and branches inside each other than a number. -/
def Allowance.upTo (deepest : Nat) (mark : Nat → Location → Location) : Allowance :=
  ⟨mark, fun _ => True, (· ≤ deepest)⟩

theorem Program.obeys_upTo {p : Program} {deepest : Nat} (h : p.nesting ≤ deepest)
    (mark : Nat → Location → Location) :
    Stmt.ObeyAll (.upTo deepest mark) 0 p.statements :=
  Stmt.obeyAll (fun _ hd => hd) p.statements 0 (fun _ _ => trivial) ((Nat.zero_add _).trans_le h)

theorem Store.size_setAll {α : Type} (s : Store α) (scope : Scope) (pairs : List (String × α)) :
    (s.setAll scope pairs).frames.size = s.frames.size := by
  induction pairs generalizing s with
  | nil => rfl
  | cons p pairs ih => rw [Store.setAll, ih, Store.size_set]

namespace Stepwise

/-! ## New frames -/

/-- A run is about to evaluate a body or a branch in a frame that has just come to so many
others. -/
def Config.AddsFrame (size : Nat) (c : Config) : Prop :=
  ∃ ss scope, c.control = .stmts ss .null scope ∧ scope.frame = size ∧
    c.machine.store.frames.size = size + 1

/-- A run goes on with the frames of a machine, or with one more for a body or a branch. -/
def Config.Grows (m : Machine) (c : Config) : Prop :=
  c.machine.store.frames.size = m.store.frames.size ∨ c.AddsFrame m.store.frames.size

variable {e : Evaluator} {stack : List Pending} {depth : Nat} {m : Machine}

theorem addsFrame_openBlock (b : Block) (scope : Scope) :
    (openBlock b scope stack depth m).AddsFrame m.store.frames.size :=
  ⟨b.statements, (m.enclose scope).1, rfl, rfl, m.store.size_enclose scope⟩

theorem grows_visit (x : Expr) (scope : Scope) : (visit stack depth m x scope).Grows m := by
  cases x <;> exact .inl rfl

theorem grows_resume (v : Value) (f : Frame) : (resume stack depth m v f).Grows m := by
  cases f with
  | condition b alternative scope =>
    unfold resume
    dsimp only
    split
    · exact .inr (addsFrame_openBlock b scope)
    · cases alternative with
      | none => exact .inl rfl
      | some a => exact .inr (addsFrame_openBlock a scope)
  | key x ps entries scope =>
    rw [resume]
    cases v.hashKey? <;> exact .inl rfl
  | bind name scope => exact .inl (m.store.size_set scope name v)
  | _ => exact .inl rfl

theorem grows_enterCall {arguments : List Value} {f : Value} {c : Config}
    (h : enterCall e stack depth m arguments f = .running c) : c.Grows m := by
  cases f with
  | function f =>
    rw [enterCall] at h
    split at h
    · cases h
      exact .inl rfl
    split at h
    · cases h
    · cases h
      refine .inr ⟨f.body.statements, (m.enclose f.scope).1, rfl, rfl, ?_⟩
      exact (Store.size_setAll _ _ _).trans (m.store.size_enclose f.scope)
  | _ =>
    cases h
    exact .inl rfl

theorem grows_handOver {v : Value} {c : Config} (h : handOver depth m v stack = .running c) :
    c.Grows m := by
  cases stack with
  | nil => cases h
  | cons pending stack =>
    cases pending with
    | call =>
      cases h
      exact .inl rfl
    | frame f =>
      rw [handOver] at h
      split at h
      · cases h
        exact .inl rfl
      · cases h
        exact grows_resume v f

/-- A step makes at most one frame, and then it enters a body or a branch there. -/
theorem grows_step {c c' : Config} (h : step e c = .running c') : c'.Grows c.machine := by
  unfold step at h
  split at h
  case h_1 =>
    cases h
    exact grows_visit _ _
  case h_12 =>
    split at h <;> cases h <;> exact .inl rfl
  case h_13 =>
    split at h <;> cases h <;> exact .inl rfl
  case h_14 => exact grows_enterCall h
  case h_15 => exact grows_handOver h
  all_goals
    cases h
    exact .inl rfl

/-! ## Nodes -/

/-- A node inside of so many bodies and branches, with marks. -/
def Node.marked (mark : Nat → Location → Location) (depth : Nat) : Node → Node
  | program p => program ⟨Stmt.markedAll mark depth p.statements⟩
  | stmt s => stmt (s.marked mark depth)
  | expr x => expr (x.marked mark depth)

variable {A : Allowance}

/-- If one of two runs in lockstep is about to evaluate a node, so is the other, in the same scope
and with the marks for this scope. -/
theorem Control.Paired.node (node : Node) {scope : Scope} {k : Control}
    (h : Control.Paired A (node.control scope) k) :
    A.fits scope.depth ∧ k = (node.marked A.mark scope.depth).control scope := by
  cases node with
  | program p =>
    cases h with
    | stmts hss hlatest =>
      cases hlatest
      exact ⟨hss.fits, rfl⟩
  | stmt s =>
    cases h with
    | stmt hs => exact ⟨hs.fits, rfl⟩
  | expr x =>
    cases h with
    | expr hx => exact ⟨hx.fits, rfl⟩

theorem Control.Paired.exists_scope {k : Control} {name : String} {frames : List Nat}
    (h : Control.Paired A (.lookUp name frames) k) :
    ∃ scope : Scope, A.fits scope.depth ∧ frames <:+ scope.chain := by
  cases h with
  | lookUp scope _ hfits hframes => exact ⟨scope, hfits, hframes⟩

theorem Progress.Paired.exists_running {p : Progress} {c : Config}
    (h : Progress.Paired A (.running c) p) : ∃ c', p = .running c' ∧ Config.Paired A c c' := by
  cases h with
  | running h => exact ⟨_, rfl, h⟩

end Stepwise

namespace Session

open Stepwise

/-- The machine after some programs, which are run one after the other in the scope of a
session. -/
def machineAfter (e : Evaluator) (ps : List Program) : Machine :=
  ps.foldl (fun m p => (e.runProgram p (start e).scope m).2) (start e).machine

/-- Where the next program stands after a number of steps. -/
def progress (e : Evaluator) (ps : List Program) (p : Program) (n : Nat) : Progress :=
  walk e n (begin e p (machineAfter e ps))

/-! ## Sessions with marks -/

section Marked

variable {A : Allowance} {maxDepth : Nat} {ps : List Program} {p : Program} {m n : Machine}

theorem machines_start (e : Evaluator) : A.Machines (start e).machine (start e).machine where
  size := rfl
  closures := rfl
  printed := rfl
  bindings frame name _ := by
    have hempty : (start e).machine.store.bindings frame = [] :=
      List.eq_nil_iff_forall_not_mem.mpr fun p hp => stores_start (fun _ => False) e frame p hp
    rw [hempty]
    exact .none

theorem paired_begin (hp : Stmt.ObeyAll A 0 p.statements) (hm : A.Machines m n) :
    Progress.Paired A (begin (.standard maxDepth) p m)
      (begin (.standard maxDepth) (p.marked A.mark) n) := by
  unfold begin
  exact paired_start hp rfl hm

/-- A session that runs marked programs differs in marks only. -/
theorem machines_foldl (hps : ∀ p ∈ ps, Stmt.ObeyAll A 0 p.statements) (hm : A.Machines m n) :
    let run m p := ((Evaluator.standard maxDepth).runProgram p
      (start (.standard maxDepth)).scope m).2
    A.Machines (ps.foldl run m) ((ps.map (Program.marked A.mark)).foldl run n) := by
  intro run
  induction ps generalizing m n with
  | nil => exact hm
  | cons p ps ih =>
    obtain ⟨hp, hps⟩ := List.forall_mem_cons.mp hps
    have hbegin : Progress.Paired A (begin (.standard maxDepth) p m) _ := paired_begin hp hm
    exact ih hps (paired_runProgram hbegin).2

/-- The next program of a session stands at the same place, with marks or without. -/
theorem paired_progress (maxDepth : Nat) (ps : List Program) (p : Program) (k : Nat)
    (mark : Nat → Location → Location) :
    Progress.Paired (.upTo (deepestNesting (p :: ps)) mark)
      (progress (.standard maxDepth) ps p k)
      (progress (.standard maxDepth) (ps.map (Program.marked mark)) (p.marked mark) k) := by
  have hobeys : ∀ q ∈ p :: ps,
      Stmt.ObeyAll (.upTo (deepestNesting (p :: ps)) mark) 0 q.statements :=
    fun q hq => q.obeys_upTo (nesting_le_deepestNesting hq) mark
  obtain ⟨hp, hps⟩ := List.forall_mem_cons.mp hobeys
  exact paired_walk k (paired_begin hp (machines_foldl hps (machines_start _)))

end Marked

/-- **Scopes follow the nesting of the source.** A session has run some programs and is anywhere
in the run of another one.

The scope in which a node is evaluated has a chain that is one longer than its level, which is how
many bodies and branches are around the node in its program: whatever is written on the nodes of
all the programs from how many bodies and branches are around each, it is what is written on this
node for this level. No level is deeper than the programs nest. So no scope that is made has a
longer chain, and looking up a name goes through no more frames. -/
theorem chain_follows_nesting (maxDepth : Nat) (ps : List Program) (p : Program) (k : Nat)
    {c : Config} (hc : progress (.standard maxDepth) ps p k = .running c) :
    (∀ (node : Node) scope, c.control = node.control scope →
      ∃ level, scope.chain.length = 1 + level ∧ level ≤ deepestNesting (p :: ps) ∧
        ∀ mark, ∃ c', progress (.standard maxDepth) (ps.map (Program.marked mark))
            (p.marked mark) k = .running c' ∧
          c'.control = (node.marked mark level).control scope) ∧
    (∀ c', Stepwise.step (.standard maxDepth) c = .running c' →
      c'.machine.store.frames.size = c.machine.store.frames.size ∨
        ∃ ss scope, c'.control = .stmts ss .null scope ∧
          scope.frame = c.machine.store.frames.size ∧
          c'.machine.store.frames.size = c.machine.store.frames.size + 1 ∧
          scope.chain.length ≤ 1 + deepestNesting (p :: ps)) ∧
    (∀ name frames, c.control = .lookUp name frames →
      frames.length ≤ 1 + deepestNesting (p :: ps)) := by
  have hpaired : ∀ mark, ∃ c', progress (.standard maxDepth) (ps.map (Program.marked mark))
      (p.marked mark) k = .running c' ∧
        Config.Paired (.upTo (deepestNesting (p :: ps)) mark) c c' := by
    intro mark
    have h := paired_progress maxDepth ps p k mark
    rw [hc] at h
    exact h.exists_running
  obtain ⟨d, -, hd⟩ := hpaired keepMark
  refine ⟨fun node scope hcontrol => ?_, fun c' hc' => ?_, fun name frames hlookUp => ?_⟩
  · have hnode : ∀ {A : Allowance} {c'}, Config.Paired A c c' → A.fits scope.depth ∧
        c'.control = (node.marked A.mark scope.depth).control scope :=
      fun h => Control.Paired.node node (hcontrol ▸ h.control)
    refine ⟨scope.depth, scope.length_chain, (hnode hd).1, fun mark => ?_⟩
    obtain ⟨c', hc', h⟩ := hpaired mark
    exact ⟨c', hc', (hnode h).2⟩
  · refine (grows_step hc').imp_right ?_
    rintro ⟨ss, scope, hcontrol, hframe, hsize⟩
    have hnext : Progress.Paired _ (Stepwise.step (.standard maxDepth) c) _ := paired_step hd
    rw [hc'] at hnext
    obtain ⟨d', -, hd'⟩ := hnext.exists_running
    have hbody := hd'.control
    rw [hcontrol] at hbody
    have hfits := (Control.Paired.node (.program ⟨ss⟩) hbody).1
    refine ⟨ss, scope, hcontrol, hframe, hsize, ?_⟩
    rw [scope.length_chain]
    exact Nat.add_le_add_left hfits 1
  · have hscope := hd.control
    rw [hlookUp] at hscope
    obtain ⟨scope, hfits, hframes⟩ := hscope.exists_scope
    calc frames.length
      _ ≤ scope.chain.length := hframes.length_le
      _ = 1 + scope.depth := scope.length_chain
      _ ≤ 1 + deepestNesting (p :: ps) := Nat.add_le_add_left hfits 1

/-- The function `f` calls itself from one branch of its body. In the other branch, two calls deep,
the scope of a node has a chain of three, and two is what a mark says that tells how deep the node
is in its program. -/
theorem chain_follows_nesting_recursion :
    let f := (parse "let f = fn(x) { if (x) { f(false) } else { x } };").program
    let p := (parse "f(true)").program
    ∃ c x, progress (.standard 2) [f] p 38 = .running c ∧ c.depth = 2 ∧
      c.control = .expr x ⟨4, [3, 0]⟩ ∧
      ∃ c', progress (.standard 2) [f.marked fun d _ => ⟨d, 0⟩] (p.marked fun d _ => ⟨d, 0⟩) 38 =
          .running c' ∧
        c'.control = .expr (x.marked (fun d _ => ⟨d, 0⟩) 2) ⟨4, [3, 0]⟩ := by
  intro f p
  have hplace : (match progress (.standard 2) [f] p 38 with
      | .running ⟨.expr _ scope, _, depth, _⟩ => some (scope, depth)
      | _ => none) = some (⟨4, [3, 0]⟩, 2) := by decide +kernel
  split at hplace
  · next x scope stack depth m hc =>
    cases hplace
    obtain ⟨level, hlength, -, hmarked⟩ :=
      (chain_follows_nesting 2 [f] p 38 hc).1 (.expr x) ⟨4, [3, 0]⟩ rfl
    obtain rfl : 2 = level := Nat.add_left_cancel hlength
    exact ⟨_, x, hc, rfl, rfl, hmarked _⟩
  · cases hplace

end Session

end Monkey
