import Monkey.Proofs.Evaluation.Agreement
import Monkey.Proofs.Evaluation.Likeness
import Monkey.Proofs.Printing.RoundTrip

/-!
# Programs that are printed alike run alike

What a program does depends on its bare tree only, which has no tokens. A value is bare if
the functions in it are, and a machine if the values on it are. Running the bare program on
the bare machine gives, bare, what running the program gives (`Evaluator.runProgram_bare`).
This is shown for each step that evaluation is made of (`Erases`), and then along the tree.

The text of a program determines its bare tree, because the text is parsed back to it
(`Program.bare_eq_of_render_eq`). So programs with the same text do the same, and nothing
that is shown of a value tells the two apart (`runProgram_of_render_eq`).
-/

namespace Monkey

/-! ## Values without tokens -/

/-- A function whose text has no tokens. -/
def Closure.bare (f : Closure) : Closure :=
  ⟨f.number, f.parameters.map Ident.bare, f.body.bare, f.scope⟩

/-- The second function is the first without its tokens. -/
def Closure.Bares (f g : Closure) : Prop := g = f.bare

theorem Closure.render_bare (f : Closure) : f.bare.render = f.render := by
  simp only [render, bare, Ident.renderParameters_bare, Block.render_bare]

/-- A function cannot be told from the one without its tokens. -/
theorem Closure.faithful_bares : Faithful Bares where
  render {f g} h := by
    rw [show g = f.bare from h]
    exact f.render_bare
  number {f g f' g'} h h' := by
    rw [show g = f.bare from h, show g' = f'.bare from h']
    exact Iff.rfl

namespace Value

mutual

/-- A value whose functions have no tokens. -/
def bare : Value → Value
  | integer n => integer n
  | float x => float x
  | boolean b => boolean b
  | string s => string s
  | null => null
  | returned v => returned v.bare
  | error message => error message
  | function f => function f.bare
  | native f => native f
  | array elements => array (bareAll elements)
  | hash entries => hash (bareEntries entries)
termination_by structural v => v

def bareAll : List Value → List Value
  | [] => []
  | v :: vs => v.bare :: bareAll vs
termination_by structural vs => vs

def bareEntries : List (HashKey × Value × Value) → List (HashKey × Value × Value)
  | [] => []
  | (filed, key, value) :: entries => (filed, key.bare, value.bare) :: bareEntries entries
termination_by structural entries => entries

end

theorem bareAll_eq_map (vs : List Value) : bareAll vs = vs.map bare := by
  induction vs with
  | nil => rfl
  | cons v vs ih => rw [bareAll, ih, List.map_cons]

theorem bareEntries_eq_map (entries : List (HashKey × Value × Value)) :
    bareEntries entries = entries.map fun e => (e.1, e.2.1.bare, e.2.2.bare) := by
  induction entries with
  | nil => rfl
  | cons e entries ih =>
    obtain ⟨filed, k, v⟩ := e
    rw [bareEntries, ih, List.map_cons]

open Closure (Bares)

mutual

theorem like_bare : ∀ v : Value, Like Bares v v.bare
  | .integer n => .integer n
  | .float x => .float x
  | .boolean b => .boolean b
  | .string s => .string s
  | .null => .null
  | .returned v => .returned (like_bare v)
  | .error message => .error message
  | .function _ => .function rfl
  | .native f => .native f
  | .array vs => .array (like_bareAll vs)
  | .hash es => .hash (like_bareEntries es)
termination_by structural v => v

theorem like_bareAll : ∀ vs : List Value, List.Forall₂ (Like Bares) vs (bareAll vs)
  | [] => .nil
  | v :: vs => .cons (like_bare v) (like_bareAll vs)
termination_by structural vs => vs

theorem like_bareEntries : ∀ es : List (HashKey × Value × Value),
    List.Forall₂ (Entrywise (Like Bares)) es (bareEntries es)
  | [] => .nil
  | (filed, k, v) :: es => .cons (.mk filed (like_bare k) (like_bare v)) (like_bareEntries es)
termination_by structural es => es

end

mutual

theorem Like.eq_bare : ∀ (v : Value) {w : Value}, Like Bares v w → w = v.bare
  | .integer _, _, .integer _ | .float _, _, .float _ | .boolean _, _, .boolean _
  | .string _, _, .string _ | .null, _, .null | .error _, _, .error _
  | .native _, _, .native _ => rfl
  | .returned v, _, .returned h => congrArg Value.returned (Like.eq_bare v h)
  | .function f, _, .function h => congrArg Value.function (show _ = f.bare from h)
  | .array vs, _, .array h => congrArg Value.array (Like.eq_bareAll vs h)
  | .hash es, _, .hash h => congrArg Value.hash (Like.eq_bareEntries es h)
termination_by structural v => v

theorem Like.eq_bareAll : ∀ (vs : List Value) {ws : List Value},
    List.Forall₂ (Like Bares) vs ws → ws = bareAll vs
  | [], _, .nil => rfl
  | v :: vs, _, .cons h hs => congrArg₂ List.cons (Like.eq_bare v h) (Like.eq_bareAll vs hs)
termination_by structural vs => vs

theorem Like.eq_bareEntries : ∀ (es : List (HashKey × Value × Value))
    {ds : List (HashKey × Value × Value)},
      List.Forall₂ (Entrywise (Like Bares)) es ds → ds = bareEntries es
  | [], _, .nil => rfl
  | (_, k, v) :: es, _, .cons (.mk filed hk hv) hs => by
    rw [Like.eq_bare k hk, Like.eq_bare v hv, Like.eq_bareEntries es hs, bareEntries]
termination_by structural es => es

end

theorem render_bare (v : Value) : v.bare.render = v.render :=
  Like.render Closure.faithful_bares v (like_bare v)

mutual

theorem outlineOnto_bare : ∀ (v : Value) (rest : List String),
    v.bare.outlineOnto rest = v.outlineOnto rest
  | .integer _, _ | .float _, _ | .boolean _, _ | .string _, _ | .null, _ | .error _, _
  | .native _, _ => rfl
  | .returned v, rest => congrArg _ (outlineOnto_bare v rest)
  | .function f, rest => by
    simp only [bare, outlineOnto, Closure.render_bare]
    simp only [Closure.bare, List.length_map]
  | .array vs, rest => by
    rw [bare, outlineOnto, outlineOnto, outlineAllOnto_bareAll vs, bareAll_eq_map, List.length_map]
  | .hash es, rest => by
    rw [bare, outlineOnto, outlineOnto, outlineEntriesOnto_bareEntries es, bareEntries_eq_map,
      List.length_map]
termination_by structural v => v

theorem outlineAllOnto_bareAll : ∀ (vs : List Value) (rest : List String),
    outlineAllOnto (bareAll vs) rest = outlineAllOnto vs rest
  | [], _ => rfl
  | v :: vs, rest => by
    rw [bareAll, outlineAllOnto, outlineAllOnto, outlineAllOnto_bareAll vs, outlineOnto_bare v]
termination_by structural vs => vs

theorem outlineEntriesOnto_bareEntries :
    ∀ (es : List (HashKey × Value × Value)) (rest : List String),
      outlineEntriesOnto (bareEntries es) rest = outlineEntriesOnto es rest
  | [], _ => rfl
  | (filed, k, v) :: es, rest => by
    rw [bareEntries, outlineEntriesOnto, outlineEntriesOnto, outlineEntriesOnto_bareEntries es,
      outlineOnto_bare v, outlineOnto_bare k]
termination_by structural es => es

end

theorem outline_bare (v : Value) : v.bare.outline = v.outline := outlineOnto_bare v []

theorem unary_bare (operator : String) (v : Value) :
    unary operator v.bare = (unary operator v).bare :=
  Like.eq_bare _ (like_unary (like_bare v) operator)

theorem binary_bare (operator : String) (a b : Value) :
    binary operator a.bare b.bare = (binary operator a b).bare :=
  Like.eq_bare _ (like_binary Closure.faithful_bares (like_bare a) (like_bare b) operator)

theorem index_bare (t k : Value) : index t.bare k.bare = (index t k).bare :=
  Like.eq_bare _ (like_index (like_bare t) (like_bare k))

theorem unwrapReturned_bare (v : Value) : v.bare.unwrapReturned = v.unwrapReturned.bare :=
  Like.eq_bare _ (like_bare v).unwrapReturned

theorem insert_bareEntries (filed : HashKey) (k v : Value)
    (entries : List (HashKey × Value × Value)) :
    HashTable.insert filed (k.bare, v.bare) (bareEntries entries) =
      bareEntries (HashTable.insert filed (k, v) entries) :=
  Like.eq_bareEntries _
    (forall₂_insert (like_bareEntries entries) filed (like_bare k) (like_bare v))

end Value

theorem Library.call_bare (f : Native) (arguments : List Value) :
    (standard.call f (Value.bareAll arguments)).printed = (standard.call f arguments).printed ∧
      (standard.call f (Value.bareAll arguments)).value =
        (standard.call f arguments).value.bare := by
  obtain ⟨hprinted, hvalue⟩ := like_call Closure.faithful_bares f (Value.like_bareAll arguments)
  exact ⟨hprinted, Value.Like.eq_bare _ hvalue⟩

/-! ## Machines without tokens -/

/-- A machine on which no function has tokens. -/
def Machine.bare (m : Machine) : Machine := ⟨m.store.map Value.bare, m.closures, m.printed⟩

namespace Machine

theorem lookUp_bare (m : Machine) (scope : Scope) (name : String) :
    m.bare.lookUp Library.standard scope name = (m.lookUp Library.standard scope name).bare := by
  have hget : m.bare.store.get? scope name = (m.store.get? scope name).map Value.bare :=
    Store.get?_map _ _ _ _
  unfold lookUp
  rw [hget]
  cases m.store.get? scope name with
  | some v => rfl
  | none => cases Library.standard.find? name <;> rfl

theorem enclose_bare (m : Machine) (scope : Scope) :
    m.bare.enclose scope = ((m.enclose scope).1, (m.enclose scope).2.bare) := by
  simp [enclose, bare, Store.enclose_map]

theorem define_bare (m : Machine) (scope : Scope) (name : String) (v : Value) :
    m.bare.define scope name v.bare = (m.define scope name v).bare := by
  simp [define, bare, Store.set_map]

theorem defineAll_bare (m : Machine) (scope : Scope) (names : List String) (vs : List Value) :
    m.bare.defineAll scope (names.zip (Value.bareAll vs)) =
      (m.defineAll scope (names.zip vs)).bare := by
  have hzip : names.zip (Value.bareAll vs) = (names.zip vs).map fun p => (p.1, p.2.bare) := by
    rw [Value.bareAll_eq_map, List.zip_map_right]
    rfl
  simp [defineAll, bare, hzip, Store.setAll_map]

end Machine

/-! ## Steps without tokens -/

section Erases

variable {α β γ δ : Type} {f : α → β} {g : γ → δ}

/-- How a step ends without tokens, if it ends in a given way with them. A result `a` becomes
`f a`. -/
def bareResult (f : α → β) : EStateM.Result Abort Machine α → EStateM.Result Abort Machine β
  | .ok a m => .ok (f a) m.bare
  | .error why m => .error why m.bare

/-- The second step does on each machine without tokens what the first does with them. -/
def Erases (f : α → β) (x : Eval α) (y : Eval β) : Prop :=
  ∀ m : Machine, y m.bare = bareResult f (x m)

namespace Erases

theorem pure {a : α} {b : β} (h : b = f a) : Erases f (Pure.pure a) (Pure.pure b) := by
  intro m
  rw [h]
  rfl

theorem bind {x : Eval α} {y : Eval β} {k : α → Eval γ} {l : β → Eval δ} (hx : Erases f x y)
    (hk : ∀ a, Erases g (k a) (l (f a))) : Erases g (x >>= k) (y >>= l) := by
  intro m
  show EStateM.bind y l m.bare = bareResult g (EStateM.bind x k m)
  unfold EStateM.bind
  rw [hx m]
  cases x m with
  | ok a m' => exact hk a m'
  | error why m' => rfl

/-- The check for a signal goes the same way. -/
theorem check {x y : Eval Value} {k : Value → Eval γ} {l : Value → Eval δ} {u : Value → γ}
    {v : Value → δ} (hx : Erases Value.bare x y) (hsignal : ∀ a, v a.bare = g (u a))
    (hk : ∀ a, Erases g (k a) (l a.bare)) :
    Erases g (x >>= fun a => if a.isSignal then Pure.pure (u a) else k a)
      (y >>= fun b => if b.isSignal then Pure.pure (v b) else l b) := by
  refine bind hx fun a => ?_
  rw [(Value.like_bare a).isSignal]
  split
  · exact pure (hsignal a)
  · exact hk a

theorem unlessSignal {x y : Eval Value} {k l : Value → Eval Value} (hx : Erases Value.bare x y)
    (hk : ∀ a, Erases Value.bare (k a) (l a.bare)) :
    Erases Value.bare (Eval.unlessSignal x k) (Eval.unlessSignal y l) :=
  check hx (fun _ => rfl) hk

theorem lookUp (scope : Scope) (name : String) :
    Erases Value.bare (Eval.lookUp Library.standard scope name)
      (Eval.lookUp Library.standard scope name) :=
  fun m => congrArg (EStateM.Result.ok · m.bare) (m.lookUp_bare scope name)

theorem enclose {scope : Scope} {k : Scope → Eval γ} {l : Scope → Eval δ}
    (hk : ∀ inner, Erases g (k inner) (l inner)) :
    Erases g (Eval.enclose scope >>= k) (Eval.enclose scope >>= l) := by
  intro m
  show l (m.bare.enclose scope).1 (m.bare.enclose scope).2 = _
  rw [m.enclose_bare]
  exact hk _ _

theorem newClosure (parameters : List Ident) (body : Block) (scope : Scope) :
    Erases Value.bare (Eval.newClosure parameters body scope)
      (Eval.newClosure (parameters.map Ident.bare) body.bare scope) :=
  fun _ => rfl

theorem modify {u v : Machine → Machine} {k : Unit → Eval γ} {l : Unit → Eval δ}
    (hu : ∀ m, v m.bare = (u m).bare) (hk : Erases g (k ()) (l ())) :
    Erases g (MonadState.modifyGet (fun m => ((), u m)) >>= k)
      (MonadState.modifyGet (fun m => ((), v m)) >>= l) := by
  intro m
  show l () (v m.bare) = bareResult g (k () (u m))
  rw [hu]
  exact hk (u m)

end Erases

end Erases

/-! ## Trees -/

/-- What several expressions come to, without tokens. -/
def bareExcept {α β : Type} (f : α → β) : Except Value α → Except Value β
  | .ok a => .ok (f a)
  | .error signal => .error signal.bare

/-- A call does without tokens what it does with them. -/
def ErasesCalls (apply : Apply) : Prop :=
  ∀ f arguments, Erases Value.bare (apply f arguments) (apply f.bare (Value.bareAll arguments))

variable {apply : Apply}

mutual

theorem erases_expr (h : ErasesCalls apply) : ∀ (x : Expr) (scope : Scope),
    Erases Value.bare (x.eval Library.standard apply scope)
      (x.bare.eval Library.standard apply scope)
  | .ident id, scope => .lookUp scope id.name
  | .boolean _ _, _ | .integer _ _, _ | .float _ _, _ | .string _ _, _ => .pure rfl
  | .array _ xs, scope => by
    rw [Expr.bare, Expr.eval, Expr.eval]
    refine .bind (erases_exprs h xs scope) fun r => ?_
    cases r with
    | ok vs => exact .pure rfl
    | error signal => exact .pure rfl
  | .hash _ ps, scope => by
    rw [Expr.bare, Expr.eval, Expr.eval]
    refine .bind (erases_pairs h ps [] scope) fun r => ?_
    cases r with
    | ok entries => exact .pure rfl
    | error signal => exact .pure rfl
  | .unary _ op x, scope => by
    rw [Expr.bare, Expr.eval, Expr.eval]
    exact (erases_expr h x scope).unlessSignal fun v => .pure (Value.unary_bare op v)
  | .binary _ op l r, scope => by
    rw [Expr.bare, Expr.eval, Expr.eval]
    refine (erases_expr h l scope).unlessSignal fun a => ?_
    exact (erases_expr h r scope).unlessSignal fun b => .pure (Value.binary_bare op a b)
  | .conditional _ c b none, scope => by
    rw [Expr.bare, Expr.eval, Expr.eval]
    refine (erases_expr h c scope).unlessSignal fun v => ?_
    rw [(Value.like_bare v).isTruthy]
    split
    · exact .enclose fun inner => erases_block h b inner
    · exact .pure rfl
  | .conditional _ c b (some a), scope => by
    rw [Expr.bare, Expr.eval, Expr.eval]
    refine (erases_expr h c scope).unlessSignal fun v => ?_
    rw [(Value.like_bare v).isTruthy]
    split
    · exact .enclose fun inner => erases_block h b inner
    · exact .enclose fun inner => erases_block h a inner
  | .function _ ps b, scope => .newClosure ps b scope
  | .call _ f xs, scope => by
    rw [Expr.bare, Expr.eval, Expr.eval]
    refine (erases_expr h f scope).unlessSignal fun v => ?_
    refine .bind (erases_exprs h xs scope) fun r => ?_
    cases r with
    | ok vs => exact h v vs
    | error signal => exact .pure rfl
  | .index _ t k, scope => by
    rw [Expr.bare, Expr.eval, Expr.eval]
    refine (erases_expr h t scope).unlessSignal fun a => ?_
    exact (erases_expr h k scope).unlessSignal fun b => .pure (Value.index_bare a b)
termination_by structural x => x

theorem erases_exprs (h : ErasesCalls apply) : ∀ (xs : List Expr) (scope : Scope),
    Erases (bareExcept Value.bareAll) (Expr.evalAll Library.standard apply xs scope)
      (Expr.evalAll Library.standard apply (Expr.bareAll xs) scope)
  | [], _ => .pure rfl
  | x :: xs, scope => by
    rw [Expr.bareAll, Expr.evalAll, Expr.evalAll]
    refine (erases_expr h x scope).check (fun _ => rfl) fun v => ?_
    refine .bind (erases_exprs h xs scope) fun r => ?_
    cases r with
    | ok vs => exact .pure rfl
    | error signal => exact .pure rfl
termination_by structural xs => xs

theorem erases_pairs (h : ErasesCalls apply) : ∀ (ps : List (Expr × Expr))
    (entries : List (HashKey × Value × Value)) (scope : Scope),
      Erases (bareExcept Value.bareEntries)
        (Expr.evalPairs Library.standard apply ps entries scope)
        (Expr.evalPairs Library.standard apply (Expr.barePairs ps) (Value.bareEntries entries)
          scope)
  | [], _, _ => .pure rfl
  | (k, x) :: ps, entries, scope => by
    rw [Expr.barePairs, Expr.evalPairs, Expr.evalPairs]
    refine (erases_expr h k scope).check (fun _ => rfl) fun key => ?_
    rw [(Value.like_bare key).hashKey?, (Value.like_bare key).kind]
    split
    · exact .pure rfl
    · next filed _ =>
      refine (erases_expr h x scope).check (fun _ => rfl) fun v => ?_
      rw [Value.insert_bareEntries]
      exact erases_pairs h ps _ scope
termination_by structural ps => ps

theorem erases_stmt (h : ErasesCalls apply) : ∀ (s : Stmt) (scope : Scope),
    Erases Value.bare (s.eval Library.standard apply scope)
      (s.bare.eval Library.standard apply scope)
  | .bind _ name x, scope => by
    rw [Stmt.bare, Stmt.eval, Stmt.eval]
    refine (erases_expr h x scope).unlessSignal fun v => ?_
    exact .modify (fun m => m.define_bare scope name.name v) (.pure rfl)
  | .ret _ none, _ => .pure rfl
  | .ret _ (some x), scope => by
    rw [Stmt.bare, Stmt.eval, Stmt.eval]
    exact (erases_expr h x scope).unlessSignal fun v => .pure rfl
  | .expr _ x, scope => erases_expr h x scope
termination_by structural s => s

theorem erases_stmts (h : ErasesCalls apply) : ∀ (ss : List Stmt) (latest : Value) (scope : Scope),
    Erases Value.bare (Stmt.evalAll Library.standard apply ss latest scope)
      (Stmt.evalAll Library.standard apply (Stmt.bareAll ss) latest.bare scope)
  | [], _, _ => .pure rfl
  | s :: ss, latest, scope => by
    rw [Stmt.bareAll, Stmt.evalAll, Stmt.evalAll]
    exact (erases_stmt h s scope).unlessSignal fun v => erases_stmts h ss v scope
termination_by structural ss => ss

theorem erases_block (h : ErasesCalls apply) : ∀ (b : Block) (scope : Scope),
    Erases Value.bare (b.eval Library.standard apply scope)
      (b.bare.eval Library.standard apply scope)
  | .mk _ ss, scope => erases_stmts h ss .null scope
termination_by structural b => b

end

/-! ## Calls -/

theorem erases_applyClosure (f : Closure) {k : Nat}
    (ih : ∀ j < k, ErasesCalls (applyValue Library.standard j)) (arguments : List Value) :
    Erases Value.bare (applyValue Library.standard k (.function f) arguments)
      (applyValue Library.standard k (.function f.bare) (Value.bareAll arguments)) := by
  have hcount : f.bare.parameters.length = f.parameters.length := List.length_map _
  have hnames : f.bare.parameters.map (·.name) = f.parameters.map (·.name) := List.map_map
  have hlength : (Value.bareAll arguments).length = arguments.length := by
    rw [Value.bareAll_eq_map, List.length_map]
  rw [applyValue.eq_def, applyValue.eq_def]
  dsimp only
  rw [hcount, hlength, hnames]
  split
  · exact .pure rfl
  cases k with
  | zero => exact fun _ => rfl
  | succ k =>
    refine .enclose fun scope => .modify (fun m => m.defineAll_bare scope _ arguments) ?_
    exact .bind (erases_block (ih k (Nat.lt_succ_self k)) f.body scope)
      fun v => .pure (Value.unwrapReturned_bare v)

theorem erases_apply (k : Nat) : ErasesCalls (applyValue Library.standard k) := by
  induction k using Nat.strongRecOn with
  | ind k ih =>
    intro f arguments
    cases f with
    | function f => exact erases_applyClosure f ih arguments
    | native f =>
      rw [applyValue.eq_def, applyValue.eq_def]
      obtain ⟨hprinted, hvalue⟩ := Library.call_bare f arguments
      dsimp only [Value.bare]
      rw [hprinted, hvalue]
      exact .modify (fun _ => rfl) (.pure rfl)
    | _ =>
      rw [applyValue.eq_def, applyValue.eq_def]
      exact .pure rfl

/-! ## Programs -/

/-- How a run ends, without tokens. -/
def Outcome.bare : Outcome → Outcome
  | value v => value v.bare
  | depthExceeded limit => depthExceeded limit

theorem Erases.finish {x y : Eval Value} (h : Erases Value.bare x y) (e : Evaluator)
    (m : Machine) : e.finish y m.bare = ((e.finish x m).1.bare, (e.finish x m).2.bare) := by
  unfold Evaluator.finish
  rw [h m]
  rcases x m with ⟨v, m'⟩ | ⟨_, m'⟩ <;> rfl

/-- A program without tokens does what the program does, without tokens. -/
theorem Evaluator.runProgram_bare (maxDepth : Nat) (p : Program) (scope : Scope) (m : Machine) :
    (standard maxDepth).runProgram p.bare scope m.bare =
      (((standard maxDepth).runProgram p scope m).1.bare,
        ((standard maxDepth).runProgram p scope m).2.bare) := by
  have herases : Erases Value.bare
      (p.eval Library.standard (applyValue Library.standard maxDepth) scope)
      (p.bare.eval Library.standard (applyValue Library.standard maxDepth) scope) :=
    .bind (erases_stmts (erases_apply maxDepth) p.statements .null scope)
      fun v => .pure (Value.unwrapReturned_bare v)
  exact herases.finish (standard maxDepth) m

/-- The text of a parsed program determines it, but for its tokens. -/
theorem Program.bare_eq_of_render_eq {source source' : String}
    (h : (parse source).program.render = (parse source').program.render) :
    (parse source).program.bare = (parse source').program.bare := by
  have hback := (parse_render_of_printable (printable_parse source)).2
  have hback' := (parse_render_of_printable (printable_parse source')).2
  rw [← hback, h, hback']

/-- Runs that end in ways that cannot be told apart: with values that have the same text and the
same outline and differ in nothing but the tokens of their functions, or with the same limit
exceeded. -/
inductive Outcome.Indistinct : Outcome → Outcome → Prop
  | value {u v : Value} (hbare : v.bare = u.bare) (hrender : v.render = u.render)
      (houtline : v.outline = u.outline) : Indistinct (.value u) (.value v)
  | depthExceeded (limit : Nat) : Indistinct (.depthExceeded limit) (.depthExceeded limit)

theorem Outcome.indistinct_of_bare_eq {o o' : Outcome} (h : o'.bare = o.bare) :
    Indistinct o o' := by
  rcases o with u | limit <;> rcases o' with v | limit'
  · have hbare : v.bare = u.bare := Outcome.value.inj h
    refine .value hbare ?_ ?_
    · rw [← v.render_bare, hbare, u.render_bare]
    · rw [← v.outline_bare, hbare, u.outline_bare]
  · cases h
  · cases h
  · obtain rfl : limit' = limit := Outcome.depthExceeded.inj h
    exact .depthExceeded limit'

/-- **Programs that are printed alike run alike.** From any machine and in any scope they end in
ways that cannot be told apart, have printed the same, and leave machines that differ in nothing
but the tokens of the functions that are stored. -/
theorem runProgram_of_render_eq {source source' : String}
    (h : (parse source').program.render = (parse source).program.render) (maxDepth : Nat)
    (scope : Scope) (m : Machine) :
    let r := (Evaluator.standard maxDepth).runProgram (parse source).program scope m
    let r' := (Evaluator.standard maxDepth).runProgram (parse source').program scope m
    Outcome.Indistinct r.1 r'.1 ∧ r'.2.printed = r.2.printed ∧ r'.2.bare = r.2.bare := by
  intro r r'
  have hbare : (r'.1.bare, r'.2.bare) = (r.1.bare, r.2.bare) :=
    calc (r'.1.bare, r'.2.bare)
      _ = (Evaluator.standard maxDepth).runProgram (parse source').program.bare scope m.bare :=
        (Evaluator.runProgram_bare maxDepth _ scope m).symm
      _ = (Evaluator.standard maxDepth).runProgram (parse source).program.bare scope m.bare := by
        rw [Program.bare_eq_of_render_eq h]
      _ = (r.1.bare, r.2.bare) := Evaluator.runProgram_bare maxDepth _ scope m
  obtain ⟨houtcome, hmachine⟩ := Prod.mk.inj hbare
  have hprinted : r'.2.bare.printed = r.2.bare.printed := by rw [hmachine]
  exact ⟨Outcome.indistinct_of_bare_eq houtcome, hprinted, hmachine⟩

/-- A function that is written on one line or on two, and is given to itself. -/
theorem runProgram_of_render_eq_layout :
    (parse "let f=fn( x ){x};\nf (f)").program.render =
        (parse "let f = fn(x) { x; }; f(f);").program.render ∧
      Outcome.Indistinct
        ((Evaluator.standard 1).runProgram (parse "let f = fn(x) { x; }; f(f);").program
          Machine.new.root.1 Machine.new.root.2).1
        ((Evaluator.standard 1).runProgram (parse "let f=fn( x ){x};\nf (f)").program
          Machine.new.root.1 Machine.new.root.2).1 := by
  have hrender : (parse "let f=fn( x ){x};\nf (f)").program.render =
      (parse "let f = fn(x) { x; }; f(f);").program.render := by decide +kernel
  exact ⟨hrender, (runProgram_of_render_eq hrender 1 Machine.new.root.1 Machine.new.root.2).1⟩

end Monkey
