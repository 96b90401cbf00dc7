import Monkey.Proofs.Evaluation.DepthLimit
import Monkey.Proofs.Evaluation.Footprint
import Monkey.Proofs.Evaluation.Marking

/-!
# Two runs in lockstep

A run can see neither what is written on the nodes of its program nor a binding of a name
that nobody looks up. So two runs take the same steps if their programs differ in marks only
and their machines in bindings of such names only, as an allowance says. Each step keeps
this up (`paired_step`), for runs that may be anywhere: the trees that wait on the stack and the
bodies of the functions that are stored are marked alike, each from the number of scopes around
the scope that it belongs to.

That number need not be related to the program. It only has to go up by one where a body or a
branch is entered, in the marks as well as in the scopes, and it does: a new scope is inside the
scope of the `if`, or inside the scope where the function was made.
-/

namespace Monkey

/-- How many scopes are around a scope. -/
def Scope.depth (s : Scope) : Nat := s.outer.length

theorem Scope.length_chain (s : Scope) : s.chain.length = 1 + s.depth :=
  Nat.add_comm s.outer.length 1

/-- A function with marks on its body. -/
def Closure.marked (mark : Nat → Location → Location) (f : Closure) : Closure :=
  { f with body := f.body.marked mark (f.scope.depth + 1) }

namespace Allowance

variable (A : Allowance)

/-- Functions that differ in marks only, with bodies that keep to an allowance. -/
def Closures (f g : Closure) : Prop :=
  g = f.marked A.mark ∧ f.body.Obeys A (f.scope.depth + 1)

/-- Values that differ in their functions only, and those in marks. -/
abbrev Values : Value → Value → Prop := Value.Like A.Closures

abbrev Tables :
    List (HashKey × Value × Value) → List (HashKey × Value × Value) → Prop :=
  List.Forall₂ (Value.Entrywise A.Values)

theorem faithful : Closure.Faithful A.Closures where
  render {f g} h := by
    obtain ⟨rfl, -⟩ := h
    rw [Closure.render, Closure.render]
    simp only [Closure.marked, Block.render_marked]
  number h h' := by
    obtain ⟨rfl, -⟩ := h
    obtain ⟨rfl, -⟩ := h'
    exact Iff.rfl

/-! ## Machines -/

/-- Machines that have the same bindings, but for marks and for names that are not looked up. -/
structure Machines (m n : Machine) : Prop where
  size : n.store.frames.size = m.store.frames.size
  closures : n.closures = m.closures
  printed : n.printed = m.printed
  bindings : ∀ frame name, A.seen name →
    Option.Rel A.Values ((m.store.bindings frame).get? name) ((n.store.bindings frame).get? name)

namespace Machines

variable {A} {m n : Machine}

/-- The next frame has the same number on both. -/
theorem enclose_fst (hm : A.Machines m n) (scope : Scope) :
    (n.enclose scope).1 = (m.enclose scope).1 :=
  congrArg (Scope.mk · scope.chain) hm.size

theorem enclose (hm : A.Machines m n) (scope : Scope) :
    A.Machines (m.enclose scope).2 (n.enclose scope).2 where
  size := by
    show (n.store.enclose scope).2.frames.size = (m.store.enclose scope).2.frames.size
    rw [Store.size_enclose, Store.size_enclose, hm.size]
  closures := hm.closures
  printed := hm.printed
  bindings frame name hname := by
    show Option.Rel A.Values (((m.store.enclose scope).2.bindings frame).get? name)
      (((n.store.enclose scope).2.bindings frame).get? name)
    rw [Store.bindings_enclose, Store.bindings_enclose]
    exact hm.bindings frame name hname

theorem define (hm : A.Machines m n) (scope : Scope) (name : String) {u v : Value}
    (huv : A.Values u v) : A.Machines (m.define scope name u) (n.define scope name v) where
  size := by
    show (n.store.set scope name v).frames.size = (m.store.set scope name u).frames.size
    rw [Store.size_set, Store.size_set, hm.size]
  closures := hm.closures
  printed := hm.printed
  bindings frame other hother := by
    show Option.Rel A.Values (((m.store.set scope name u).bindings frame).get? other)
      (((n.store.set scope name v).bindings frame).get? other)
    rw [Store.bindings_set, Store.bindings_set, hm.size]
    split
    · by_cases hname : other = name
      · subst hname
        rw [Bindings.get?_set_self, Bindings.get?_set_self]
        exact .some huv
      · rw [Bindings.get?_set_of_ne hname, Bindings.get?_set_of_ne hname]
        exact hm.bindings frame other hother
    · exact hm.bindings frame other hother

theorem defineAll (hm : A.Machines m n) (scope : Scope) (names : List String)
    {us vs : List Value} (huvs : List.Forall₂ A.Values us vs) :
    A.Machines (m.defineAll scope (names.zip us)) (n.defineAll scope (names.zip vs)) := by
  induction names generalizing m n us vs with
  | nil => exact hm
  | cons name names ih =>
    cases huvs with
    | nil => exact hm
    | cons huv huvs => exact ih (hm.define scope name huv) huvs

theorem print (hm : A.Machines m n) (text : String) : A.Machines (m.print text) (n.print text) :=
  ⟨hm.size, hm.closures, congrArg (· ++ text) hm.printed, hm.bindings⟩

theorem countClosure (hm : A.Machines m n) :
    A.Machines { m with closures := m.closures + 1 } { n with closures := n.closures + 1 } :=
  ⟨hm.size, congrArg (· + 1) hm.closures, hm.printed, hm.bindings⟩

end Machines

end Allowance

namespace Stepwise

/-! ## Runs -/

variable (A : Allowance)

inductive Purpose.Paired : Purpose → Purpose → Prop
  | elements : Paired .elements .elements
  | arguments {f g : Value} (h : A.Values f g) : Paired (.arguments f) (.arguments g)

/-- What waits in two frames differs in marks only, and the trees keep to an allowance. -/
inductive Frame.Paired : Frame → Frame → Prop
  | operand (operator : String) : Paired (.operand operator) (.operand operator)
  | left (operator : String) {x : Expr} {scope : Scope} (hx : x.Obeys A scope.depth) :
    Paired (.left operator x scope) (.left operator (x.marked A.mark scope.depth) scope)
  | right (operator : String) {a b : Value} (h : A.Values a b) :
    Paired (.right operator a) (.right operator b)
  | condition {b : Block} {alternative : Option Block} {scope : Scope}
      (hb : b.Obeys A (scope.depth + 1))
      (halternative : ∀ a, alternative = some a → a.Obeys A (scope.depth + 1)) :
    Paired (.condition b alternative scope)
      (.condition (b.marked A.mark (scope.depth + 1))
        (alternative.map (Block.marked A.mark (scope.depth + 1))) scope)
  | callee {xs : List Expr} {scope : Scope} (hxs : Expr.ObeyAll A scope.depth xs) :
    Paired (.callee xs scope) (.callee (Expr.markedAll A.mark scope.depth xs) scope)
  | item {p q : Purpose} {us vs : List Value} {xs : List Expr} {scope : Scope}
      (hpurpose : Purpose.Paired A p q) (hbefore : List.Forall₂ A.Values us vs)
      (hxs : Expr.ObeyAll A scope.depth xs) :
    Paired (.item p us xs scope) (.item q vs (Expr.markedAll A.mark scope.depth xs) scope)
  | key {x : Expr} {ps : List (Expr × Expr)} {es ds : List (HashKey × Value × Value)}
      {scope : Scope} (hx : x.Obeys A scope.depth) (hps : Expr.ObeyPairs A scope.depth ps)
      (hentries : A.Tables es ds) :
    Paired (.key x ps es scope)
      (.key (x.marked A.mark scope.depth) (Expr.markedPairs A.mark scope.depth ps) ds scope)
  | entry (filed : HashKey) {k l : Value} {ps : List (Expr × Expr)}
      {es ds : List (HashKey × Value × Value)} {scope : Scope} (hkey : A.Values k l)
      (hps : Expr.ObeyPairs A scope.depth ps) (hentries : A.Tables es ds) :
    Paired (.entry filed k ps es scope)
      (.entry filed l (Expr.markedPairs A.mark scope.depth ps) ds scope)
  | target {x : Expr} {scope : Scope} (hx : x.Obeys A scope.depth) :
    Paired (.target x scope) (.target (x.marked A.mark scope.depth) scope)
  | position {t u : Value} (h : A.Values t u) : Paired (.position t) (.position u)
  | bind (name : String) (scope : Scope) : Paired (.bind name scope) (.bind name scope)
  | ret : Paired .ret .ret
  | statement {ss : List Stmt} {scope : Scope} (hss : Stmt.ObeyAll A scope.depth ss) :
    Paired (.statement ss scope) (.statement (Stmt.markedAll A.mark scope.depth ss) scope)

inductive Pending.Paired : Pending → Pending → Prop
  | frame {f g : Frame} (h : Frame.Paired A f g) : Paired (.frame f) (.frame g)
  | call : Paired .call .call

/-- What two runs do next differs in marks only, and the trees keep to an allowance. -/
inductive Control.Paired : Control → Control → Prop
  | expr {x : Expr} {scope : Scope} (hx : x.Obeys A scope.depth) :
    Paired (.expr x scope) (.expr (x.marked A.mark scope.depth) scope)
  | exprs {p q : Purpose} {us vs : List Value} {xs : List Expr} {scope : Scope}
      (hpurpose : Purpose.Paired A p q) (hbefore : List.Forall₂ A.Values us vs)
      (hxs : Expr.ObeyAll A scope.depth xs) :
    Paired (.exprs p us xs scope) (.exprs q vs (Expr.markedAll A.mark scope.depth xs) scope)
  | pairs {ps : List (Expr × Expr)} {es ds : List (HashKey × Value × Value)} {scope : Scope}
      (hps : Expr.ObeyPairs A scope.depth ps) (hentries : A.Tables es ds) :
    Paired (.pairs ps es scope) (.pairs (Expr.markedPairs A.mark scope.depth ps) ds scope)
  | stmt {s : Stmt} {scope : Scope} (hs : s.Obeys A scope.depth) :
    Paired (.stmt s scope) (.stmt (s.marked A.mark scope.depth) scope)
  | stmts {ss : List Stmt} {u v : Value} {scope : Scope} (hss : Stmt.ObeyAll A scope.depth ss)
      (hlatest : A.Values u v) :
    Paired (.stmts ss u scope) (.stmts (Stmt.markedAll A.mark scope.depth ss) v scope)
  /-- The frames that are left to look into are the last of a scope's. -/
  | lookUp {name : String} {frames : List Nat} (scope : Scope) (hname : A.seen name)
      (hfits : A.fits scope.depth) (hframes : frames <:+ scope.chain) :
    Paired (.lookUp name frames) (.lookUp name frames)
  | apply {f g : Value} {us vs : List Value} (hf : A.Values f g)
      (harguments : List.Forall₂ A.Values us vs) : Paired (.apply f us) (.apply g vs)
  | give {u v : Value} (h : A.Values u v) : Paired (.give u) (.give v)

/-- Two runs stand at the same place. -/
structure Config.Paired (c c' : Config) : Prop where
  control : Control.Paired A c.control c'.control
  stack : List.Forall₂ (Pending.Paired A) c.stack c'.stack
  depth : c'.depth = c.depth
  machine : A.Machines c.machine c'.machine

inductive Progress.Paired : Progress → Progress → Prop
  | running {c c' : Config} (h : Config.Paired A c c') : Paired (.running c) (.running c')
  | halted {o o' : Outcome} {m n : Machine} (houtcome : Outcome.Like A.Closures o o')
      (hm : A.Machines m n) : Paired (.halted o m) (.halted o' n)

/-! ## Steps -/

variable {A} {stack stack' : List Pending} {depth : Nat} {m n : Machine}

theorem paired_openBlock {b : Block} {scope : Scope} (hb : b.Obeys A (scope.depth + 1))
    (hstack : List.Forall₂ (Pending.Paired A) stack stack') (hm : A.Machines m n) :
    Config.Paired A (openBlock b scope stack depth m)
      (openBlock (b.marked A.mark (scope.depth + 1)) scope stack' depth n) := by
  unfold openBlock
  rw [b.statements_marked]
  dsimp only
  rw [hm.enclose_fst scope]
  -- The new scope has one more around it, and the block is marked from one more.
  have hcontrol : Control.Paired A (.stmts b.statements .null (m.enclose scope).1) _ :=
    .stmts hb.statements .null
  exact ⟨hcontrol, hstack, rfl, hm.enclose scope⟩

theorem paired_visit {x : Expr} {scope : Scope} (hx : x.Obeys A scope.depth)
    (hstack : List.Forall₂ (Pending.Paired A) stack stack') (hm : A.Machines m n) :
    Config.Paired A (visit stack depth m x scope)
      (visit stack' depth n (x.marked A.mark scope.depth) scope) := by
  cases x with
  | ident id => exact ⟨.lookUp scope hx.2 hx.1 (List.suffix_refl _), hstack, rfl, hm⟩
  | boolean t b => exact ⟨.give (.boolean b), hstack, rfl, hm⟩
  | integer t i => exact ⟨.give (.integer i), hstack, rfl, hm⟩
  | float t x => exact ⟨.give (.float x), hstack, rfl, hm⟩
  | string t s => exact ⟨.give (.string s), hstack, rfl, hm⟩
  | array t xs => exact ⟨.exprs .elements .nil hx, hstack, rfl, hm⟩
  | hash t ps => exact ⟨.pairs hx .nil, hstack, rfl, hm⟩
  | unary t operator x => exact ⟨.expr hx, .cons (.frame (.operand operator)) hstack, rfl, hm⟩
  | binary t operator l r =>
    exact ⟨.expr hx.1, .cons (.frame (.left operator hx.2)) hstack, rfl, hm⟩
  | conditional t c b alternative =>
    cases alternative with
    | none =>
      have hframe : Frame.Paired A (.condition b none scope) _ := .condition hx.2 nofun
      exact ⟨.expr hx.1, .cons (.frame hframe) hstack, rfl, hm⟩
    | some a =>
      have hframe : Frame.Paired A (.condition b (some a) scope) _ :=
        .condition hx.2.1 fun _ ha => Option.some.inj ha ▸ hx.2.2
      exact ⟨.expr hx.1, .cons (.frame hframe) hstack, rfl, hm⟩
  | function t ps b =>
    have hclosure : A.Closures ⟨m.closures, ps, b, scope⟩
        ⟨n.closures, ps, b.marked A.mark (scope.depth + 1), scope⟩ :=
      ⟨by rw [hm.closures]; rfl, hx.2⟩
    exact ⟨.give (.function hclosure), hstack, rfl, hm.countClosure⟩
  | call t f xs => exact ⟨.expr hx.1, .cons (.frame (.callee hx.2)) hstack, rfl, hm⟩
  | index t x k => exact ⟨.expr hx.1, .cons (.frame (.target hx.2)) hstack, rfl, hm⟩

theorem paired_resume {u v : Value} {f g : Frame} (huv : A.Values u v) (hframe : Frame.Paired A f g)
    (hstack : List.Forall₂ (Pending.Paired A) stack stack') (hm : A.Machines m n) :
    Config.Paired A (resume stack depth m u f) (resume stack' depth n v g) := by
  cases hframe with
  | operand operator => exact ⟨.give (Value.like_unary huv operator), hstack, rfl, hm⟩
  | left operator hx => exact ⟨.expr hx, .cons (.frame (.right operator huv)) hstack, rfl, hm⟩
  | right operator h =>
    exact ⟨.give (Value.like_binary A.faithful h huv operator), hstack, rfl, hm⟩
  | @condition b alternative scope hb halternative =>
    unfold resume
    dsimp only
    rw [huv.isTruthy]
    split
    · exact paired_openBlock hb hstack hm
    · cases alternative with
      | none => exact ⟨.give .null, hstack, rfl, hm⟩
      | some a => exact paired_openBlock (halternative a rfl) hstack hm
  | callee hxs => exact ⟨.exprs (.arguments huv) .nil hxs, hstack, rfl, hm⟩
  | item hpurpose hbefore hxs =>
    exact ⟨.exprs hpurpose (List.rel_append hbefore (.cons huv .nil)) hxs, hstack, rfl, hm⟩
  | key hx hps hentries =>
    rw [resume, resume, huv.hashKey?, huv.kind]
    cases u.hashKey? with
    | none => exact ⟨.give (.error _), hstack, rfl, hm⟩
    | some filed =>
      exact ⟨.expr hx, .cons (.frame (.entry filed huv hps hentries)) hstack, rfl, hm⟩
  | entry filed hkey hps hentries =>
    exact ⟨.pairs hps (Value.forall₂_insert hentries filed hkey huv), hstack, rfl, hm⟩
  | target hx => exact ⟨.expr hx, .cons (.frame (.position huv)) hstack, rfl, hm⟩
  | position h => exact ⟨.give (Value.like_index h huv), hstack, rfl, hm⟩
  | bind name scope => exact ⟨.give .null, hstack, rfl, hm.define scope name huv⟩
  | ret => exact ⟨.give (.returned huv), hstack, rfl, hm⟩
  | statement hss => exact ⟨.stmts hss huv, hstack, rfl, hm⟩

section Standard

variable {maxDepth : Nat}

/-- The body of a function is entered inside the scope where the function was made. -/
theorem paired_enterClosure {f g : Closure} {us vs : List Value} (hf : A.Closures f g)
    (harguments : List.Forall₂ A.Values us vs)
    (hstack : List.Forall₂ (Pending.Paired A) stack stack') (hm : A.Machines m n) :
    Progress.Paired A (enterCall (.standard maxDepth) stack depth m us (.function f))
      (enterCall (.standard maxDepth) stack' depth n vs (.function g)) := by
  obtain ⟨rfl, hbody⟩ := hf
  have hparameters : (f.marked A.mark).parameters = f.parameters := rfl
  rw [enterCall, enterCall, hparameters, ← harguments.length_eq]
  split
  · exact .running ⟨.give (.error _), hstack, rfl, hm⟩
  split
  · exact .halted (.depthExceeded _) hm
  · -- The caller's scope plays no part: the body was marked from the scope of the function.
    dsimp only [Closure.marked]
    rw [Block.statements_marked, hm.enclose_fst f.scope]
    have hcontrol : Control.Paired A (.stmts f.body.statements .null (m.enclose f.scope).1) _ :=
      .stmts hbody.statements .null
    exact .running ⟨hcontrol, .cons .call hstack, rfl,
      (hm.enclose f.scope).defineAll _ _ harguments⟩

theorem paired_enterCall {f g : Value} {us vs : List Value} (hf : A.Values f g)
    (harguments : List.Forall₂ A.Values us vs)
    (hstack : List.Forall₂ (Pending.Paired A) stack stack') (hm : A.Machines m n) :
    Progress.Paired A (enterCall (.standard maxDepth) stack depth m us f)
      (enterCall (.standard maxDepth) stack' depth n vs g) := by
  cases hf with
  | function hf => exact paired_enterClosure hf harguments hstack hm
  | native f =>
    obtain ⟨hprinted, hvalue⟩ := Library.like_call A.faithful f harguments
    rw [enterCall, enterCall]
    dsimp only [Evaluator.standard]
    rw [hprinted]
    exact .running ⟨.give hvalue, hstack, rfl, hm.print _⟩
  | _ =>
    refine .running ?_
    exact ⟨.give (.error _), hstack, rfl, hm⟩

theorem paired_handOver {u v : Value} (huv : A.Values u v)
    (hstack : List.Forall₂ (Pending.Paired A) stack stack') (hm : A.Machines m n) :
    Progress.Paired A (handOver depth m u stack) (handOver depth n v stack') := by
  cases hstack with
  | nil => exact .halted (.value huv.unwrapReturned) hm
  | cons htop hbelow =>
    cases htop with
    | call => exact .running ⟨.give huv.unwrapReturned, hbelow, rfl, hm⟩
    | frame hframe =>
      rw [handOver, handOver, huv.isSignal]
      split
      · exact .running ⟨.give huv, hbelow, rfl, hm⟩
      · exact .running (paired_resume huv hframe hbelow hm)

/-- A name that may be looked up has alike values in each frame, or none in either. -/
theorem paired_lookUp {name : String} {frames : List Nat} (scope : Scope) (hname : A.seen name)
    (hfits : A.fits scope.depth) (hframes : frames <:+ scope.chain)
    (hstack : List.Forall₂ (Pending.Paired A) stack stack') (hm : A.Machines m n) :
    Progress.Paired A (step (.standard maxDepth) ⟨.lookUp name frames, stack, depth, m⟩)
      (step (.standard maxDepth) ⟨.lookUp name frames, stack', depth, n⟩) := by
  cases frames with
  | nil =>
    rw [step, step]
    cases (Evaluator.standard maxDepth).library.find? name with
    | some f => exact .running ⟨.give (.native f), hstack, rfl, hm⟩
    | none => exact .running ⟨.give (.error _), hstack, rfl, hm⟩
  | cons frame outer =>
    have hget := hm.bindings frame name hname
    rw [step, step]
    generalize (m.store.bindings frame).get? name = a, (n.store.bindings frame).get? name = b
      at hget ⊢
    cases hget with
    | some huv => exact .running ⟨.give huv, hstack, rfl, hm⟩
    | none =>
      have houter := (List.suffix_cons frame outer).trans hframes
      exact .running ⟨.lookUp scope hname hfits houter, hstack, rfl, hm⟩

/-- Runs that stand at the same place take the same step. -/
theorem paired_step {c c' : Config} (h : Config.Paired A c c') :
    Progress.Paired A (step (.standard maxDepth) c) (step (.standard maxDepth) c') := by
  obtain ⟨control, stack, depth, m⟩ := c
  obtain ⟨control', stack', depth', n⟩ := c'
  obtain ⟨hcontrol, hstack, hdepth, hm⟩ := h
  dsimp only at hcontrol hstack hdepth hm
  subst hdepth
  cases hcontrol with
  | expr hx => exact .running (paired_visit hx hstack hm)
  | @exprs p q us vs xs scope hpurpose hbefore hxs =>
    cases xs with
    | nil =>
      cases hpurpose with
      | elements => exact .running ⟨.give (.array hbefore), hstack, rfl, hm⟩
      | arguments hf => exact .running ⟨.apply hf hbefore, hstack, rfl, hm⟩
    | cons x xs =>
      exact .running ⟨.expr hxs.1, .cons (.frame (.item hpurpose hbefore hxs.2)) hstack, rfl, hm⟩
  | @pairs ps es ds scope hps hentries =>
    cases ps with
    | nil => exact .running ⟨.give (.hash hentries), hstack, rfl, hm⟩
    | cons p ps =>
      obtain ⟨key, value⟩ := p
      have hframe : Frame.Paired A (.key value ps es scope) _ := .key hps.2.1 hps.2.2 hentries
      exact .running ⟨.expr hps.1, .cons (.frame hframe) hstack, rfl, hm⟩
  | @stmt s scope hs =>
    cases s with
    | bind t name x => exact .running ⟨.expr hs, .cons (.frame (.bind _ scope)) hstack, rfl, hm⟩
    | ret t x =>
      cases x with
      | none => exact .running ⟨.give (.returned .null), hstack, rfl, hm⟩
      | some x => exact .running ⟨.expr hs, .cons (.frame .ret) hstack, rfl, hm⟩
    | expr t x => exact .running ⟨.expr hs, hstack, rfl, hm⟩
  | @stmts ss u v scope hss hlatest =>
    cases ss with
    | nil => exact .running ⟨.give hlatest, hstack, rfl, hm⟩
    | cons s ss =>
      exact .running ⟨.stmt hss.1, .cons (.frame (.statement hss.2)) hstack, rfl, hm⟩
  | lookUp scope hname hfits hframes => exact paired_lookUp scope hname hfits hframes hstack hm
  | apply hf harguments => exact paired_enterCall hf harguments hstack hm
  | give huv => exact paired_handOver huv hstack hm

/-! ## Programs -/

/-- Runs that stand at the same place stay in step. -/
theorem paired_walk : ∀ (k : Nat) {p q : Progress}, Progress.Paired A p q →
    Progress.Paired A (walk (.standard maxDepth) k p) (walk (.standard maxDepth) k q)
  | 0, _, _, h => h
  | k + 1, _, _, .running h => paired_walk k (paired_step h)
  | _ + 1, _, _, .halted houtcome hm => .halted houtcome hm

/-- A program starts at the same place with marks, if it is marked from as many scopes as there are
around the one that it is run in. -/
theorem paired_start {p q : Program} {scope : Scope} (hp : Stmt.ObeyAll A scope.depth p.statements)
    (hq : q.statements = Stmt.markedAll A.mark scope.depth p.statements) (hm : A.Machines m n) :
    Progress.Paired A (.running (start p scope m)) (.running (start q scope n)) := by
  unfold start
  rw [hq]
  exact .running ⟨.stmts hp .null, .nil, rfl, hm⟩

/-- Runs that start at the same place end alike. -/
theorem paired_runProgram {p q : Program} {scope : Scope}
    (h : Progress.Paired A (.running (start p scope m)) (.running (start q scope n))) :
    Outcome.Like A.Closures ((Evaluator.standard maxDepth).runProgram p scope m).1
        ((Evaluator.standard maxDepth).runProgram q scope n).1 ∧
      A.Machines ((Evaluator.standard maxDepth).runProgram p scope m).2
        ((Evaluator.standard maxDepth).runProgram q scope n).2 := by
  obtain ⟨k, hk⟩ := leads_runProgram (.standard maxDepth) p scope m
  obtain ⟨l, hl⟩ := leads_runProgram (.standard maxDepth) q scope n
  -- Both runs have ended after as many steps as the two take together.
  have hend := @paired_walk _ maxDepth (k + l) _ _ h
  rw [walk_of_halted hk, Nat.add_comm, walk_of_halted hl] at hend
  cases hend with
  | halted houtcome hm => exact ⟨houtcome, hm⟩

end Standard

end Stepwise

end Monkey
