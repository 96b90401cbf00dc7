import Monkey.Proofs.Evaluation.Erasure
import Monkey.Proofs.Evaluation.Footprint
import Monkey.Proofs.Evaluation.Termination

/-!
# Programs one after the other

Statements that follow others are evaluated where those leave off, with the value of the last
one at hand, unless one of those gives a signal (`Stmt.evalAll_append`). What has been printed
before does not matter to them: it stays in front of what they print (`Stmt.evalAll_behind`).
Together with the fact that tokens do not matter, this says how a program goes on from the
machine that another one leaves (`Stmt.evalAll_bare_append`). How a program ends is told by how
its statements do (`Evaluator.conclude`).
-/

namespace Monkey

/-! ## Text that has been printed before -/

/-- The same machine, with a text in front of what has been printed. -/
def Machine.behind (text : String) (m : Machine) : Machine :=
  { m with printed := text ++ m.printed }

/-- The same end of a step, with a text in front of what has been printed. -/
def behindResult {α : Type} (text : String) :
    EStateM.Result Abort Machine α → EStateM.Result Abort Machine α
  | .ok a m => .ok a (m.behind text)
  | .error why m => .error why (m.behind text)

theorem Machine.behind_empty (m : Machine) : m.behind "" = m := by
  rw [behind, String.empty_append]

/-- Taking away what has been printed and putting it in front changes nothing. -/
theorem Machine.behind_drain (text : String) (m : Machine) :
    m.drain.2.behind (text ++ m.printed) = m.behind text := by
  simp [drain, behind]

/-- What is left of a machine when all that has been printed is taken away, but for tokens. -/
theorem Machine.bare_drain {text : String} {m n : Machine} (h : m.bare = n.bare.behind text) :
    m.drain.2.bare = n.drain.2.bare :=
  congrArg (fun m : Machine => m.drain.2) h

theorem Machine.drain_of_printed {m : Machine} (h : m.printed = "") : m.drain.2 = m := by
  rw [drain, ← h]

/-- A function beside itself. -/
def Closure.Same (f g : Closure) : Prop := g = f ∧ True

theorem Closure.faithful_same : Faithful Same where
  render h := congrArg Closure.render h.1
  number h h' := by rw [h.1, h'.1]

theorem Value.like_same_iff {v w : Value} : Like Closure.Same v w ↔ w = v :=
  like_self_iff.trans (and_iff_left fun _ _ => trivial)

/-- A run beside itself, with a text in front of what has been printed. -/
def Simulation.behind (text : String) : Simulation Unit where
  closures _ f g := f.Same g
  scopes _ s t := s = t
  owned _ s t := s = t
  machines _ m n := n = m.behind text
  closures_mono _ h := h
  scopes_mono _ h := h
  owned_mono _ h := h
  scopes_of_owned h := h
  scopes_of_closures h := h.1 ▸ rfl
  parameters h := congrArg Closure.parameters h.1
  body h := congrArg Closure.body h.1
  faithful _ := Closure.faithful_same
  get? hm hs name := by
    subst hm hs
    exact Value.like_self_option fun _ _ _ _ => trivial
  enclose hm hs := by
    subst hm hs
    exact ⟨(), le_rfl, rfl, rfl⟩
  newClosure hm hs parameters body := by
    subst hm hs
    exact ⟨(), le_rfl, rfl, rfl, trivial⟩
  define hm hs name hv := by
    subst hm hs
    obtain rfl := Value.like_same_iff.mp hv
    rfl
  print hm text := by
    subst hm
    simp only [Machine.print, Machine.behind, String.append_assoc]

namespace Stmt

variable {maxDepth : Nat} {scope : Scope}

/-- What has been printed before stays in front. -/
theorem evalAll_behind (text : String) (ss : List Stmt) (latest : Value) (m : Machine) :
    evalAll Library.standard (applyValue Library.standard maxDepth) ss latest scope
        (m.behind text) =
      behindResult text (evalAll Library.standard (applyValue Library.standard maxDepth) ss latest
        scope m) := by
  have hlatest : (Simulation.behind text).Values () latest latest := Value.like_same_iff.mpr rfl
  have hends := Simulation.alike_stmts (S := Simulation.behind text)
    (Simulation.alike_apply maxDepth) ss (s := scope) rfl hlatest m (m.behind text) rfl
  generalize evalAll Library.standard (applyValue Library.standard maxDepth) ss latest scope m = r,
    evalAll Library.standard (applyValue Library.standard maxDepth) ss latest scope
      (m.behind text) = r' at hends ⊢
  cases hends with
  | ok _ hv hm =>
    obtain rfl := Value.like_same_iff.mp hv
    rw [show _ = _ from hm]
    rfl
  | abort _ hm why =>
    rw [show _ = _ from hm]
    rfl

/-! ## Statements after others -/

section Append

variable {library : Library} {apply : Apply}

/-- Statements do not look at the value before them. -/
theorem evalAll_latest {ss : List Stmt} (hne : ss ≠ []) (latest latest' : Value) :
    evalAll library apply ss latest scope = evalAll library apply ss latest' scope := by
  cases ss with
  | nil => exact absurd rfl hne
  | cons s ss => rw [evalAll, evalAll]

/-- Statements go on where those before them leave off, unless there is a signal. -/
theorem evalAll_append {ss : List Stmt} (hne : ss ≠ []) (ts : List Stmt) (latest : Value) :
    evalAll library apply (ss ++ ts) latest scope =
      Eval.unlessSignal (evalAll library apply ss latest scope) fun v =>
        evalAll library apply ts v scope := by
  induction ss generalizing latest with
  | nil => exact absurd rfl hne
  | cons s ss ih =>
    funext m
    rw [List.cons_append, evalAll, evalAll, Evaluator.unlessSignal_apply,
      Evaluator.unlessSignal_apply, Evaluator.unlessSignal_apply]
    cases s.eval library apply scope m with
    | error why m' => rfl
    | ok v m' =>
      dsimp only
      cases hsignal : v.isSignal with
      | true => simp [hsignal]
      | false =>
        cases ss with
        | nil => simp [evalAll, pure, EStateM.pure, hsignal]
        | cons t ss =>
          rw [ih (List.cons_ne_nil t ss), Evaluator.unlessSignal_apply]
          rfl

end Append

/-- How statements without tokens go on from a machine that others leave, by how those end. The
value before them and what has been printed do not matter. -/
theorem evalAll_bare_append {ss : List Stmt} (hne : ss ≠ []) (ts : List Stmt) (text : String)
    (latest latest' : Value) (m : Machine) :
    evalAll Library.standard (applyValue Library.standard maxDepth) (bareAll ss ++ ts) latest scope
        (m.bare.behind text) =
      match evalAll Library.standard (applyValue Library.standard maxDepth) ss latest' scope m with
      | .ok v m' =>
        if v.isSignal then .ok v.bare (m'.bare.behind text)
        else evalAll Library.standard (applyValue Library.standard maxDepth) ts v.bare scope
          (m'.bare.behind text)
      | .error why m' => .error why (m'.bare.behind text) := by
  have hne' : bareAll ss ≠ [] := by
    cases ss with
    | nil => exact absurd rfl hne
    | cons s ss => exact List.cons_ne_nil _ _
  have hbare := erases_stmts (erases_apply maxDepth) ss latest' scope m
  rw [evalAll_append hne', evalAll_latest hne' latest latest'.bare, Evaluator.unlessSignal_apply,
    evalAll_behind, hbare]
  cases evalAll Library.standard (applyValue Library.standard maxDepth) ss latest' scope m with
  | error why m' => rfl
  | ok v m' =>
    dsimp only [bareResult, behindResult]
    rw [(Value.like_bare v).isSignal]

end Stmt

/-! ## Programs -/

theorem Value.unwrapReturned_of_isSignal {v : Value} (h : v.isSignal = false) :
    v.unwrapReturned = v := by
  cases v with
  | returned v => cases h
  | _ => rfl

/-- Whether a run fails: its value is an error, or calls nest too deeply. -/
def Outcome.isFailure : Outcome → Bool
  | value (.error _) => true
  | value _ => false
  | depthExceeded _ => true

/-- There are no tokens in how a run fails. -/
theorem Outcome.eq_of_bare_eq {o o' : Outcome} (h : o.bare = o'.bare)
    (hfails : o'.isFailure = true) : o = o' := by
  cases o' with
  | depthExceeded limit =>
    cases o with
    | value v => cases h
    | depthExceeded limit' => exact h
  | value v' =>
    cases v' with
    | error message =>
      cases o with
      | depthExceeded limit => cases h
      | value v =>
        cases v with
        | error message' => exact h
        | _ => cases h
    | _ => cases hfails

namespace Evaluator

variable (e : Evaluator)

/-- How a program ends whose statements end in a given way. -/
def conclude : EStateM.Result Abort Machine Value → Outcome × Machine
  | .ok v m => (.value v.unwrapReturned, m)
  | .error _ m => (.depthExceeded e.maxDepth, m)

theorem runProgram_eq_conclude (p : Program) (scope : Scope) (m : Machine) :
    e.runProgram p scope m =
      e.conclude (Stmt.evalAll e.library e.apply p.statements .null scope m) := by
  rw [Stepwise.runProgram_eq]
  cases Stmt.evalAll e.library e.apply p.statements .null scope m with
  | ok v m' => rfl
  | error why m' => rfl

theorem conclude_bareResult (r : EStateM.Result Abort Machine Value) :
    e.conclude (bareResult Value.bare r) = ((e.conclude r).1.bare, (e.conclude r).2.bare) := by
  cases r with
  | ok v m =>
    rw [bareResult, conclude, Value.unwrapReturned_bare]
    rfl
  | error why m => rfl

theorem conclude_behindResult (text : String) (r : EStateM.Result Abort Machine Value) :
    e.conclude (behindResult text r) = ((e.conclude r).1, (e.conclude r).2.behind text) := by
  cases r with
  | ok v m => rfl
  | error why m => rfl

end Evaluator

end Monkey
