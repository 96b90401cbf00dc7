import Mathlib.Order.Basic
import Monkey.Evaluator
import Monkey.Proofs.Evaluation.Likeness

/-!
# Two runs side by side

A simulation says when two machines, two scopes and two functions correspond, at a
stage of two runs that go side by side. Stages are ordered, and what corresponds at
one stage does so at every later one. If each of the five things that evaluation does
with a machine keeps the correspondence (`Simulation`), then so does the evaluation of
every tree in corresponding scopes (`Simulation.alike_expr` and its companions) and
every call of corresponding functions (`Simulation.alike_apply`): the two runs end
alike, with alike values, on machines that correspond at a later stage. Expressions
are evaluated in any scopes that correspond, statements in scopes that they may write
to.
-/

namespace Monkey

/-- A correspondence of machines that evaluation keeps. -/
structure Simulation (Stage : Type) [Preorder Stage] where
  closures : Stage → Closure → Closure → Prop
  /-- Scopes in which expressions may be evaluated. -/
  scopes : Stage → Scope → Scope → Prop
  /-- Scopes in which statements may be evaluated. -/
  owned : Stage → Scope → Scope → Prop
  machines : Stage → Machine → Machine → Prop
  closures_mono {w w' : Stage} {f g : Closure} : w ≤ w' → closures w f g → closures w' f g
  scopes_mono {w w' : Stage} {s t : Scope} : w ≤ w' → scopes w s t → scopes w' s t
  owned_mono {w w' : Stage} {s t : Scope} : w ≤ w' → owned w s t → owned w' s t
  scopes_of_owned {w : Stage} {s t : Scope} : owned w s t → scopes w s t
  scopes_of_closures {w : Stage} {f g : Closure} : closures w f g → scopes w f.scope g.scope
  parameters {w : Stage} {f g : Closure} : closures w f g → g.parameters = f.parameters
  body {w : Stage} {f g : Closure} : closures w f g → g.body = f.body
  faithful (w : Stage) : Closure.Faithful (closures w)
  get? {w : Stage} {m n : Machine} {s t : Scope} (hm : machines w m n) (hs : scopes w s t)
    (name : String) :
    Option.Rel (Value.Like (closures w)) (m.store.get? s name) (n.store.get? t name)
  enclose {w : Stage} {m n : Machine} {s t : Scope} (hm : machines w m n) (hs : scopes w s t) :
    ∃ w', w ≤ w' ∧ machines w' (m.enclose s).2 (n.enclose t).2 ∧
      owned w' (m.enclose s).1 (n.enclose t).1
  newClosure {w : Stage} {m n : Machine} {s t : Scope} (hm : machines w m n) (hs : scopes w s t)
    (parameters : List Ident) (body : Block) :
    ∃ w', w ≤ w' ∧ machines w' { m with closures := m.closures + 1 }
        { n with closures := n.closures + 1 } ∧
      closures w' ⟨m.closures, parameters, body, s⟩ ⟨n.closures, parameters, body, t⟩
  define {w : Stage} {m n : Machine} {s t : Scope} {u v : Value} (hm : machines w m n)
    (hs : owned w s t) (name : String) (hv : Value.Like (closures w) u v) :
    machines w (m.define s name u) (n.define t name v)
  print {w : Stage} {m n : Machine} (hm : machines w m n) (text : String) :
    machines w (m.print text) (n.print text)

namespace Simulation

variable {Stage : Type} [Preorder Stage] (S : Simulation Stage) {α β γ δ : Type}

/-- Alike values, at a stage. -/
def Values (w : Stage) : Value → Value → Prop := Value.Like (S.closures w)

/-- Two steps end alike, at a stage not before `w`. -/
inductive Ends (w : Stage) (P : Stage → α → β → Prop) :
    EStateM.Result Abort Machine α → EStateM.Result Abort Machine β → Prop
  | ok {w' : Stage} {a : α} {b : β} {m n : Machine} (hle : w ≤ w') (hab : P w' a b)
      (hm : S.machines w' m n) : Ends w P (.ok a m) (.ok b n)
  | abort {w' : Stage} {m n : Machine} (hle : w ≤ w') (hm : S.machines w' m n) (why : Abort) :
    Ends w P (.error why m) (.error why n)

/-- Two steps end alike on all machines that correspond at a stage. -/
def Alike (w : Stage) (P : Stage → α → β → Prop) (x : Eval α) (y : Eval β) : Prop :=
  ∀ m n : Machine, S.machines w m n → S.Ends w P (x m) (y n)

variable {S} {w w' : Stage} {P : Stage → α → β → Prop} {Q : Stage → γ → δ → Prop}

theorem Values.mono {u v : Value} (hle : w ≤ w') (h : S.Values w u v) : S.Values w' u v :=
  Value.Like.mono (fun _ _ => S.closures_mono hle) u h

theorem Ends.weaken {r : EStateM.Result Abort Machine α} {r' : EStateM.Result Abort Machine β}
    (hle : w ≤ w') (h : S.Ends w' P r r') : S.Ends w P r r' := by
  cases h with
  | ok hle' hab hm => exact .ok (hle.trans hle') hab hm
  | abort hle' hm why => exact .abort (hle.trans hle') hm why

/-! ## Steps -/

namespace Alike

theorem pure {a : α} {b : β} (h : P w a b) : S.Alike w P (Pure.pure a) (Pure.pure b) :=
  fun _ _ hm => .ok le_rfl h hm

theorem bind {x : Eval α} {y : Eval β} {k : α → Eval γ} {l : β → Eval δ}
    (hx : S.Alike w P x y)
    (hk : ∀ {w' a b}, w ≤ w' → P w' a b → S.Alike w' Q (k a) (l b)) :
    S.Alike w Q (x >>= k) (y >>= l) := by
  intro m n hm
  have h := hx m n hm
  show S.Ends w Q (EStateM.bind x k m) (EStateM.bind y l n)
  unfold EStateM.bind
  generalize x m = r, y n = r' at h ⊢
  cases h with
  | ok hle hab hm => exact (hk hle hab _ _ hm).weaken hle
  | abort hle hm why => exact .abort hle hm why

/-- The check for a signal goes the same way on both sides. -/
theorem check {x y : Eval Value} {k : Value → Eval α} {l : Value → Eval β} {f : Value → α}
    {g : Value → β} (hx : S.Alike w S.Values x y)
    (hsignal : ∀ {w' u v}, w ≤ w' → S.Values w' u v → P w' (f u) (g v))
    (hk : ∀ {w' u v}, w ≤ w' → S.Values w' u v → S.Alike w' P (k u) (l v)) :
    S.Alike w P (x >>= fun u => if u.isSignal then Pure.pure (f u) else k u)
      (y >>= fun v => if v.isSignal then Pure.pure (g v) else l v) := by
  refine bind hx fun hle h => ?_
  rw [h.isSignal]
  split
  · exact pure (hsignal hle h)
  · exact hk hle h

theorem unlessSignal {x y : Eval Value} {k l : Value → Eval Value}
    (hx : S.Alike w S.Values x y)
    (hk : ∀ {w' u v}, w ≤ w' → S.Values w' u v → S.Alike w' S.Values (k u) (l v)) :
    S.Alike w S.Values (Eval.unlessSignal x k) (Eval.unlessSignal y l) :=
  check hx (fun _ h => h) hk

theorem lookUp {s t : Scope} (hs : S.scopes w s t) (name : String) :
    S.Alike w S.Values (Eval.lookUp Library.standard s name)
      (Eval.lookUp Library.standard t name) := by
  intro m n hm
  refine .ok le_rfl ?_ hm
  have h := S.get? hm hs name
  unfold Machine.lookUp
  generalize m.store.get? s name = a, n.store.get? t name = b at h ⊢
  cases h with
  | some h => exact h
  | none =>
    cases Library.standard.find? name with
    | some f => exact .native f
    | none => exact .error _

theorem enclose {s t : Scope} {k : Scope → Eval α} {l : Scope → Eval β} (hs : S.scopes w s t)
    (hk : ∀ {w' s' t'}, w ≤ w' → S.owned w' s' t' → S.Alike w' P (k s') (l t')) :
    S.Alike w P (Eval.enclose s >>= k) (Eval.enclose t >>= l) := by
  intro m n hm
  obtain ⟨w', hle, hm', hs'⟩ := S.enclose hm hs
  exact (hk hle hs' _ _ hm').weaken hle

theorem newClosure {s t : Scope} (hs : S.scopes w s t) (parameters : List Ident) (body : Block) :
    S.Alike w S.Values (Eval.newClosure parameters body s) (Eval.newClosure parameters body t) := by
  intro m n hm
  obtain ⟨w', hle, hm', hf⟩ := S.newClosure hm hs parameters body
  exact .ok hle (.function hf) hm'

theorem modify {f g : Machine → Machine} {k : Unit → Eval α} {l : Unit → Eval β}
    (hfg : ∀ {m n}, S.machines w m n → S.machines w (f m) (g n))
    (hk : S.Alike w P (k ()) (l ())) :
    S.Alike w P (MonadState.modifyGet (fun m => ((), f m)) >>= k)
      (MonadState.modifyGet (fun n => ((), g n)) >>= l) := by
  intro m n hm
  exact hk _ _ (hfg hm)

end Alike

/-! ## Trees -/

/-- What the evaluation of several expressions comes to on two sides: related results, or
related signals. -/
inductive Collected (V : Value → Value → Prop) (R : α → β → Prop) :
    Except Value α → Except Value β → Prop
  | ok {a : α} {b : β} (h : R a b) : Collected V R (.ok a) (.ok b)
  | error {u v : Value} (h : V u v) : Collected V R (.error u) (.error v)

variable (S) in
/-- Lists of alike values. -/
def Lists (w : Stage) : Except Value (List Value) → Except Value (List Value) → Prop :=
  Collected (S.Values w) (List.Forall₂ (S.Values w))

variable (S) in
/-- Entries with alike keys and values. -/
def Tables (w : Stage) : Except Value (List (HashKey × Value × Value)) →
    Except Value (List (HashKey × Value × Value)) → Prop :=
  Collected (S.Values w) (List.Forall₂ (Value.Entrywise (S.Values w)))

variable (S) in
/-- Calls of alike values with alike arguments end alike. -/
def Callable (apply : Apply) : Prop :=
  ∀ (w : Stage) (f g : Value) (as bs : List Value), S.Values w f g →
    List.Forall₂ (S.Values w) as bs → S.Alike w S.Values (apply f as) (apply g bs)

variable {apply : Apply}

mutual

theorem alike_expr (h : S.Callable apply) : ∀ (x : Expr) {w : Stage} {s t : Scope},
    S.scopes w s t → S.Alike w S.Values (x.eval Library.standard apply s)
      (x.eval Library.standard apply t)
  | .ident id, _, _, _, hs => .lookUp hs id.name
  | .boolean _ b, _, _, _, _ => .pure (.boolean b)
  | .integer _ n, _, _, _, _ => .pure (.integer n)
  | .float _ x, _, _, _, _ => .pure (.float x)
  | .string _ s, _, _, _, _ => .pure (.string s)
  | .array _ xs, _, _, _, hs => by
    rw [Expr.eval, Expr.eval]
    refine .bind (alike_exprs h xs hs) fun hle hvs => ?_
    cases hvs with
    | ok hvs => exact .pure (.array hvs)
    | error hv => exact .pure hv
  | .hash _ ps, _, _, _, hs => by
    rw [Expr.eval, Expr.eval]
    refine .bind (alike_pairs h ps hs .nil) fun hle hes => ?_
    cases hes with
    | ok hes => exact .pure (.hash hes)
    | error hv => exact .pure hv
  | .unary _ op x, _, _, _, hs => by
    rw [Expr.eval, Expr.eval]
    exact (alike_expr h x hs).unlessSignal fun _ hv => .pure (Value.like_unary hv op)
  | .binary _ op l r, _, _, _, hs => by
    rw [Expr.eval, Expr.eval]
    refine (alike_expr h l hs).unlessSignal fun hle ha => ?_
    refine (alike_expr h r (S.scopes_mono hle hs)).unlessSignal fun hle' hb => ?_
    exact .pure (Value.like_binary (S.faithful _) (ha.mono hle') hb op)
  | .conditional _ c b none, _, _, _, hs => by
    rw [Expr.eval, Expr.eval]
    refine (alike_expr h c hs).unlessSignal fun hle hv => ?_
    rw [hv.isTruthy]
    split
    · exact .enclose (S.scopes_mono hle hs) fun _ ho => alike_block h b ho
    · exact .pure .null
  | .conditional _ c b (some a), _, _, _, hs => by
    rw [Expr.eval, Expr.eval]
    refine (alike_expr h c hs).unlessSignal fun hle hv => ?_
    rw [hv.isTruthy]
    split
    · exact .enclose (S.scopes_mono hle hs) fun _ ho => alike_block h b ho
    · exact .enclose (S.scopes_mono hle hs) fun _ ho => alike_block h a ho
  | .function _ ps b, _, _, _, hs => .newClosure hs ps b
  | .call _ f xs, _, _, _, hs => by
    rw [Expr.eval, Expr.eval]
    refine (alike_expr h f hs).unlessSignal fun hle hf => ?_
    refine .bind (alike_exprs h xs (S.scopes_mono hle hs)) fun hle' hvs => ?_
    cases hvs with
    | ok hvs => exact h _ _ _ _ _ (hf.mono hle') hvs
    | error hv => exact .pure hv
  | .index _ x k, _, _, _, hs => by
    rw [Expr.eval, Expr.eval]
    refine (alike_expr h x hs).unlessSignal fun hle ht => ?_
    refine (alike_expr h k (S.scopes_mono hle hs)).unlessSignal fun hle' hk => ?_
    exact .pure (Value.like_index (ht.mono hle') hk)
termination_by structural x => x

theorem alike_exprs (h : S.Callable apply) : ∀ (xs : List Expr) {w : Stage} {s t : Scope},
    S.scopes w s t → S.Alike w S.Lists (Expr.evalAll Library.standard apply xs s)
      (Expr.evalAll Library.standard apply xs t)
  | [], _, _, _, _ => .pure (.ok .nil)
  | x :: xs, _, _, _, hs => by
    rw [Expr.evalAll, Expr.evalAll]
    refine (alike_expr h x hs).check (fun _ hv => .error hv) fun hle hv => ?_
    refine .bind (alike_exprs h xs (S.scopes_mono hle hs)) fun hle' hvs => ?_
    cases hvs with
    | ok hvs => exact .pure (.ok (.cons (hv.mono hle') hvs))
    | error hv => exact .pure (.error hv)
termination_by structural xs => xs

theorem alike_pairs (h : S.Callable apply) : ∀ (ps : List (Expr × Expr)) {w : Stage} {s t : Scope}
    {es ds : List (HashKey × Value × Value)}, S.scopes w s t →
      List.Forall₂ (Value.Entrywise (S.Values w)) es ds →
        S.Alike w S.Tables (Expr.evalPairs Library.standard apply ps es s)
          (Expr.evalPairs Library.standard apply ps ds t)
  | [], _, _, _, _, _, _, hes => .pure (.ok hes)
  | (k, x) :: ps, _, _, _, es, _, hs, hes => by
    rw [Expr.evalPairs, Expr.evalPairs]
    refine (alike_expr h k hs).check (fun _ hv => .error hv) fun hle hk => ?_
    rw [hk.hashKey?, hk.kind]
    split
    · exact .pure (.error (.error _))
    · refine (alike_expr h x (S.scopes_mono hle hs)).check (fun _ hv => .error hv) fun hle' hv => ?_
      refine alike_pairs h ps (S.scopes_mono (hle.trans hle') hs) ?_
      have hes' := Value.Like.monoEntries (fun _ _ => S.closures_mono (hle.trans hle')) es hes
      exact Value.forall₂_insert hes' _ (hk.mono hle') hv
termination_by structural ps => ps

theorem alike_stmt (h : S.Callable apply) : ∀ (x : Stmt) {w : Stage} {s t : Scope},
    S.owned w s t → S.Alike w S.Values (x.eval Library.standard apply s)
      (x.eval Library.standard apply t)
  | .bind _ name x, _, _, _, ho => by
    rw [Stmt.eval, Stmt.eval]
    refine (alike_expr h x (S.scopes_of_owned ho)).unlessSignal fun hle hv => ?_
    exact .modify (fun hm => S.define hm (S.owned_mono hle ho) name.name hv) (.pure .null)
  | .ret _ none, _, _, _, _ => .pure (.returned .null)
  | .ret _ (some x), _, _, _, ho => by
    rw [Stmt.eval, Stmt.eval]
    exact (alike_expr h x (S.scopes_of_owned ho)).unlessSignal fun _ hv => .pure (.returned hv)
  | .expr _ x, _, _, _, ho => alike_expr h x (S.scopes_of_owned ho)
termination_by structural x => x

theorem alike_stmts (h : S.Callable apply) : ∀ (ss : List Stmt) {w : Stage} {s t : Scope}
    {u v : Value}, S.owned w s t → S.Values w u v →
      S.Alike w S.Values (Stmt.evalAll Library.standard apply ss u s)
        (Stmt.evalAll Library.standard apply ss v t)
  | [], _, _, _, _, _, _, hv => .pure hv
  | x :: ss, _, _, _, _, _, ho, _ => by
    rw [Stmt.evalAll, Stmt.evalAll]
    exact (alike_stmt h x ho).unlessSignal fun hle hv => alike_stmts h ss (S.owned_mono hle ho) hv
termination_by structural ss => ss

theorem alike_block (h : S.Callable apply) : ∀ (b : Block) {w : Stage} {s t : Scope},
    S.owned w s t → S.Alike w S.Values (b.eval Library.standard apply s)
      (b.eval Library.standard apply t)
  | .mk _ ss, _, _, _, ho => alike_stmts h ss ho .null
termination_by structural b => b

end

/-! ## Calls -/

theorem machines_defineAll {m n : Machine} {s t : Scope} (hm : S.machines w m n)
    (hs : S.owned w s t) : ∀ (names : List String) {as bs : List Value},
      List.Forall₂ (S.Values w) as bs →
        S.machines w (m.defineAll s (names.zip as)) (n.defineAll t (names.zip bs)) := by
  intro names
  induction names generalizing m n with
  | nil => exact fun _ => hm
  | cons name names ih =>
    intro as bs h
    cases h with
    | nil => exact hm
    | cons hv hvs => exact ih (S.define hm hs name hv) hvs

theorem alike_applyClosure {f g : Closure} {k : Nat} (hf : S.closures w f g)
    (ih : ∀ j < k, S.Callable (applyValue Library.standard j)) {as bs : List Value}
    (has : List.Forall₂ (S.Values w) as bs) :
    S.Alike w S.Values (applyValue Library.standard k (.function f) as)
      (applyValue Library.standard k (.function g) bs) := by
  rw [applyValue.eq_def, applyValue.eq_def]
  dsimp only
  rw [S.parameters hf, S.body hf, ← has.length_eq]
  split
  · exact .pure (.error _)
  cases k with
  | zero => exact fun _ _ hm => .abort le_rfl hm _
  | succ k =>
    refine .enclose (S.scopes_of_closures hf) fun hle ho => ?_
    have has' := Value.Like.monoAll (fun _ _ => S.closures_mono hle) as has
    refine .modify (fun hm => machines_defineAll hm ho _ has') ?_
    exact .bind (alike_block (ih k (Nat.lt_succ_self k)) f.body ho)
      fun _ hv => .pure hv.unwrapReturned

/-- Calls end alike, however many more may be nested in them. -/
theorem alike_apply (k : Nat) : S.Callable (applyValue Library.standard k) := by
  induction k using Nat.strongRecOn with
  | ind k ih =>
    intro w f g as bs hf has
    cases hf with
    | function hf => exact alike_applyClosure hf ih has
    | native f =>
      rw [applyValue.eq_def, applyValue.eq_def]
      obtain ⟨hprinted, hvalue⟩ := Library.like_call (S.faithful w) f has
      dsimp only
      rw [hprinted]
      exact .modify (fun hm => S.print hm _) (.pure hvalue)
    | _ =>
      rw [applyValue.eq_def, applyValue.eq_def]
      exact .pure (.error _)

/-! ## Runs -/

end Simulation

/-- Runs that end alike: with alike values, or with the same limit reached. -/
inductive Outcome.Like (C : Closure → Closure → Prop) : Outcome → Outcome → Prop
  | value {u v : Value} (h : Value.Like C u v) : Like C (.value u) (.value v)
  | depthExceeded (limit : Nat) : Like C (.depthExceeded limit) (.depthExceeded limit)

namespace Simulation

variable {Stage : Type} [Preorder Stage] {S : Simulation Stage} {w : Stage} {m n : Machine}
  {s t : Scope}

variable (S) in
/-- Two runs end alike, on machines that correspond at a stage not before `w`. -/
def Finishes (w : Stage) (p q : Outcome × Machine) : Prop :=
  ∃ w', w ≤ w' ∧ Outcome.Like (S.closures w') p.1 q.1 ∧ S.machines w' p.2 q.2

theorem Ends.finish {x y : Eval Value} (h : S.Ends w S.Values (x m) (y n)) (e : Evaluator) :
    S.Finishes w (e.finish x m) (e.finish y n) := by
  unfold Evaluator.finish
  generalize x m = r, y n = r' at h ⊢
  cases h with
  | ok hle hv hm => exact ⟨_, hle, .value hv, hm⟩
  | abort hle hm why => exact ⟨_, hle, .depthExceeded _, hm⟩

theorem finishes_runExpr (maxDepth : Nat) (x : Expr) (hm : S.machines w m n)
    (hs : S.scopes w s t) :
    S.Finishes w ((Evaluator.standard maxDepth).runExpr x s m)
      ((Evaluator.standard maxDepth).runExpr x t n) :=
  (alike_expr (alike_apply maxDepth) x hs m n hm).finish _

theorem finishes_runStmt (maxDepth : Nat) (x : Stmt) (hm : S.machines w m n)
    (hs : S.owned w s t) :
    S.Finishes w ((Evaluator.standard maxDepth).runStmt x s m)
      ((Evaluator.standard maxDepth).runStmt x t n) :=
  (alike_stmt (alike_apply maxDepth) x hs m n hm).finish _

theorem finishes_runProgram (maxDepth : Nat) (p : Program) (hm : S.machines w m n)
    (hs : S.owned w s t) :
    S.Finishes w ((Evaluator.standard maxDepth).runProgram p s m)
      ((Evaluator.standard maxDepth).runProgram p t n) := by
  have h : S.Alike w S.Values
      (p.eval Library.standard (applyValue Library.standard maxDepth) s)
      (p.eval Library.standard (applyValue Library.standard maxDepth) t) :=
    .bind (alike_stmts (alike_apply maxDepth) p.statements hs .null)
      fun _ hv => .pure hv.unwrapReturned
  exact (h m n hm).finish _

end Simulation

end Monkey
