import Monkey.Proofs.Evaluation.Lockstep

/-!
# Names that nobody looks up

What a name stands for makes no difference to a program that does not look the name up, neither
itself nor through a function that it can get at. It may be bound, in one frame or in several,
to whatever value: the program takes the same steps, ends in the same way and prints the same, and
it leaves the same bindings of every other name (`Evaluator.runProgram_define_unread`).

The two machines differ all along, and so do the scopes that functions carry with them, but only
in bindings of this one name (`Machine.AgreeBut`). Shadowing makes no difference, because whoever
looks up another name passes over the bindings of this one.
-/

namespace Monkey

namespace Machine

/-- Machines that are the same but for what a name stands for, in any frame. -/
structure AgreeBut (z : String) (m n : Machine) : Prop where
  size : n.store.frames.size = m.store.frames.size
  closures : n.closures = m.closures
  printed : n.printed = m.printed
  bindings : ∀ frame name, name ≠ z →
    (n.store.bindings frame).get? name = (m.store.bindings frame).get? name

/-- No function looks a name up that is stored under another name, in any frame and in whatever
value. -/
def Unread (z : String) (m : Machine) : Prop :=
  ∀ frame name v, name ≠ z → (m.store.bindings frame).get? name = some v →
    ∀ f, v.Holds f → z ∉ f.body.reads

theorem agreeBut_define (m : Machine) (scope : Scope) (z : String) (v : Value) :
    m.AgreeBut z (m.define scope z v) where
  size := m.store.size_set scope z v
  closures := rfl
  printed := rfl
  bindings frame name hname := by
    show ((m.store.set scope z v).bindings frame).get? name = _
    rw [Store.bindings_set]
    split
    · exact Bindings.get?_set_of_ne hname v _
    · rfl

/-- What is seen from a scope is the same too. -/
theorem AgreeBut.get? {z : String} {m n : Machine} (h : m.AgreeBut z n) (scope : Scope)
    {name : String} (hname : name ≠ z) : n.store.get? scope name = m.store.get? scope name := by
  unfold Store.get?
  induction scope.chain with
  | nil => rfl
  | cons frame outer ih => rw [Store.find?, Store.find?, h.bindings frame name hname, ih]

end Machine

/-! ## The allowance -/

/-- No marks, and all names but one. -/
def Allowance.without (z : String) : Allowance := ⟨keepMark, (· ≠ z), fun _ => True⟩

variable {z : String}

theorem Block.obeys_without {b : Block} (h : z ∉ b.reads) (d : Nat) :
    b.Obeys (.without z) d :=
  b.obeys (fun _ _ => trivial) d (fun _ hname => ne_of_mem_of_not_mem hname h) le_rfl

theorem Program.obeys_without {p : Program} (h : z ∉ p.reads) (d : Nat) :
    Stmt.ObeyAll (.without z) d p.statements :=
  Stmt.obeyAll (fun _ _ => trivial) _ d (fun _ hname => ne_of_mem_of_not_mem hname h) le_rfl

namespace Allowance

theorem closures_without : (without z).Closures =
    fun f g => g = f ∧ f.body.Obeys (without z) (f.scope.depth + 1) := by
  funext f g
  have hmarked : f.marked keepMark = f := by rw [Closure.marked, Block.marked_keepMark]
  rw [Closures]
  show (g = f.marked keepMark ∧ _) = _
  rw [hmarked]

theorem eq_of_values_without {u v : Value} (h : (without z).Values u v) : v = u := by
  rw [Values, closures_without] at h
  exact (Value.like_self_iff.mp h).1

theorem machines_without {m n : Machine} (hagree : m.AgreeBut z n) (hm : m.Unread z) :
    (without z).Machines m n where
  size := hagree.size
  closures := hagree.closures
  printed := hagree.printed
  bindings frame name hname := by
    rw [hagree.bindings frame name hname, Values, closures_without]
    exact Value.like_self_option fun v hv f hf =>
      Block.obeys_without (hm frame name v hname hv f hf) _

theorem Machines.agreeBut {m n : Machine} (h : (without z).Machines m n) : m.AgreeBut z n where
  size := h.size
  closures := h.closures
  printed := h.printed
  bindings frame name hname := by
    have hrel := h.bindings frame name hname
    generalize (m.store.bindings frame).get? name = a, (n.store.bindings frame).get? name = b
      at hrel ⊢
    cases hrel with
    | some huv => rw [eq_of_values_without huv]
    | none => rfl

end Allowance

/-! ## Programs -/

namespace Evaluator

variable {p : Program} {m n : Machine}

/-- A program runs alike on machines that are the same but for a name that nobody looks up. -/
theorem runProgram_of_agreeBut (maxDepth : Nat) (hp : z ∉ p.reads) (hm : m.Unread z)
    (h : m.AgreeBut z n) (scope : Scope) :
    ((standard maxDepth).runProgram p scope n).1 = ((standard maxDepth).runProgram p scope m).1 ∧
      ((standard maxDepth).runProgram p scope m).2.AgreeBut z
        ((standard maxDepth).runProgram p scope n).2 := by
  have hstart : Stepwise.Progress.Paired (.without z) (.running (Stepwise.start p scope m))
      (.running (Stepwise.start p scope n)) :=
    Stepwise.paired_start (Program.obeys_without hp _) (Stmt.markedAll_keepMark _ _).symm
      (Allowance.machines_without h hm)
  obtain ⟨houtcome, hmachines⟩ := @Stepwise.paired_runProgram _ _ _ maxDepth _ _ _ hstart
  refine ⟨?_, hmachines.agreeBut⟩
  generalize ((standard maxDepth).runProgram p scope m).1 = o,
    ((standard maxDepth).runProgram p scope n).1 = o' at houtcome ⊢
  cases houtcome with
  | value huv => rw [Allowance.eq_of_values_without huv]
  | depthExceeded limit => rfl

/-- **Bindings that nobody looks up are invisible.** If neither a program nor the body of a
function that is stored under another name looks a name up, then the name may be bound to any value
in any frame: the program ends in the same way, has printed the same, and leaves the same value
of every other name in every frame, and so as seen from every scope. -/
theorem runProgram_define_unread (maxDepth : Nat) (hp : z ∉ p.reads) (hm : m.Unread z)
    (scope place : Scope) (v : Value) :
    let r := (standard maxDepth).runProgram p scope m
    let r' := (standard maxDepth).runProgram p scope (m.define place z v)
    r'.1 = r.1 ∧ r'.2.printed = r.2.printed ∧
      (∀ frame name, name ≠ z →
        (r'.2.store.bindings frame).get? name = (r.2.store.bindings frame).get? name) ∧
      ∀ other name, name ≠ z → r'.2.store.get? other name = r.2.store.get? other name := by
  intro r r'
  obtain ⟨houtcome, hagree⟩ :=
    runProgram_of_agreeBut maxDepth hp hm (m.agreeBut_define place z v) scope
  exact ⟨houtcome, hagree.printed, hagree.bindings, fun other _ => hagree.get? other⟩

/-- The function `f` gives back what it gets. What it is called with is printed whether `y` is bound
where `f` was made or not. -/
theorem runProgram_define_unread_call :
    ∃ m : Machine, m.Unread "y" ∧ m.store.get? ⟨0, []⟩ "y" = none ∧
      "y" ∉ (parse "puts(f(2))").program.reads ∧
      (m.define ⟨0, []⟩ "y" .null).store.get? ⟨0, []⟩ "y" = some .null ∧
      ((standard 1).runProgram (parse "puts(f(2))").program ⟨0, []⟩ m).2.printed = "2\n" ∧
      ((standard 1).runProgram (parse "puts(f(2))").program ⟨0, []⟩
        (m.define ⟨0, []⟩ "y" .null)).2.printed = "2\n" := by
  let f : Closure := ⟨0, [⟨default, "x"⟩], .mk default [.expr default (.ident ⟨default, "x"⟩)],
    ⟨0, []⟩⟩
  let m : Machine := ⟨⟨#[[("f", .function f)]]⟩, 1, ""⟩
  have hm : m.Unread "y" := by
    intro frame name v _ hv g hg
    have hmem := Bindings.mem_of_get? hv
    cases frame with
    | zero =>
      cases List.mem_singleton.mp hmem
      cases hg
      decide
    | succ frame => exact absurd hmem (by simp [m, Store.bindings])
  have hp : "y" ∉ (parse "puts(f(2))").program.reads := by decide +kernel
  have hprinted : ((standard 1).runProgram (parse "puts(f(2))").program ⟨0, []⟩ m).2.printed =
      "2\n" := by decide +kernel
  have hsame := (runProgram_define_unread 1 hp hm ⟨0, []⟩ ⟨0, []⟩ .null).2.1
  exact ⟨m, hm, rfl, hp, rfl, hprinted, hsame.trans hprinted⟩

end Evaluator

end Monkey
