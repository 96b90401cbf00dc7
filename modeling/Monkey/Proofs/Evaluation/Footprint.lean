import Mathlib.Logic.Function.Basic
import Mathlib.Order.CompleteBooleanAlgebra
import Mathlib.Order.CompletePartialOrder
import Mathlib.Order.Nat
import Monkey.Proofs.Evaluation.Simulation

/-!
# What evaluation leaves alone

An expression writes to no frame that was there before it: the blocks and bodies that it
runs have frames of their own. A statement writes at most the name of a `let`, to the
frame of its own scope. Nor does any frame get another frame around it. A graph says
which frames there are and what is around each (`Graph`), and a machine is on a graph
if every function that is stored on it was made in a scope of the graph
(`Machine.On`). After an evaluation the machine is on a graph that only adds frames.

Both are simulations of a run by itself. `Simulation.keeping` carries the bindings of
the frames of a machine along, and needs nothing of that machine.
`Simulation.onGraph` carries the graph along.
-/

namespace Monkey

namespace Bindings

variable {α : Type} {name : String} {value : α} {b : Bindings α}

theorem mem_of_get? (h : get? name b = some value) : (name, value) ∈ b := by
  induction b with
  | nil => simp [get?] at h
  | cons p rest ih =>
    obtain ⟨other, old⟩ := p
    unfold get? at h
    split at h
    · next heq =>
      rw [heq, Option.some.inj h]
      exact List.mem_cons_self
    · exact List.mem_cons_of_mem _ (ih h)

theorem mem_set {p : String × α} (h : p ∈ set name value b) : p = (name, value) ∨ p ∈ b := by
  induction b with
  | nil => exact Or.inl (List.mem_singleton.mp h)
  | cons q rest ih =>
    obtain ⟨other, old⟩ := q
    unfold set at h
    split at h
    · rcases List.mem_cons.mp h with rfl | h
      · exact Or.inl rfl
      · exact Or.inr (List.mem_cons_of_mem _ h)
    · rcases List.mem_cons.mp h with rfl | h
      · exact Or.inr List.mem_cons_self
      · exact (ih h).imp_right (List.mem_cons_of_mem _)

end Bindings

namespace Store

variable {α : Type}

theorem size_enclose (s : Store α) (outer : Scope) :
    (s.enclose outer).2.frames.size = s.frames.size + 1 :=
  Array.size_push _

theorem size_set (s : Store α) (scope : Scope) (name : String) (value : α) :
    (s.set scope name value).frames.size = s.frames.size :=
  Array.size_modify

/-- What is seen along some frames depends on their bindings alone. -/
theorem find?_congr {s s' : Store α} {frames : List Nat}
    (h : ∀ frame ∈ frames, s'.bindings frame = s.bindings frame) (name : String) :
    s'.find? name frames = s.find? name frames := by
  induction frames with
  | nil => rfl
  | cons frame outer ih =>
    unfold find?
    rw [h frame List.mem_cons_self, ih fun f hf => h f (List.mem_cons_of_mem _ hf)]

theorem exists_mem_of_find? {s : Store α} {name : String} {value : α} {frames : List Nat}
    (h : s.find? name frames = some value) : ∃ frame, (name, value) ∈ s.bindings frame := by
  induction frames with
  | nil => simp [find?] at h
  | cons frame outer ih =>
    unfold find? at h
    split at h
    · next v hv =>
      rw [← Option.some.inj h]
      exact ⟨frame, Bindings.mem_of_get? hv⟩
    · exact ih h

end Store

/-! ## Bindings -/

/-- The frames of `m` are there on `n`, with the same bindings, and no function has been made on
`m` that has not been made on `n`. -/
structure Machine.KeptBy (m n : Machine) : Prop where
  size : m.store.frames.size ≤ n.store.frames.size
  closures : m.closures ≤ n.closures
  bindings : ∀ frame < m.store.frames.size, n.store.bindings frame = m.store.bindings frame

namespace Machine.KeptBy

variable {m n : Machine}

theorem refl (m : Machine) : m.KeptBy m := ⟨le_rfl, le_rfl, fun _ _ => rfl⟩

theorem trans {k : Machine} (h : m.KeptBy n) (h' : n.KeptBy k) : m.KeptBy k where
  size := h.size.trans h'.size
  closures := h.closures.trans h'.closures
  bindings frame hframe :=
    (h'.bindings frame (hframe.trans_le h.size)).trans (h.bindings frame hframe)

theorem enclose (h : m.KeptBy n) (scope : Scope) : m.KeptBy (n.enclose scope).2 where
  size := by
    show _ ≤ (n.store.enclose scope).2.frames.size
    rw [Store.size_enclose]
    exact h.size.trans (Nat.le_succ _)
  closures := h.closures
  bindings frame hframe := (n.store.bindings_enclose scope frame).trans (h.bindings frame hframe)

/-- Writing to a frame that came later changes none of those before it. -/
theorem define (h : m.KeptBy n) {scope : Scope} (hscope : m.store.frames.size ≤ scope.frame)
    (name : String) (v : Value) : m.KeptBy (n.define scope name v) where
  size := h.size.trans (n.store.size_set scope name v).ge
  closures := h.closures
  bindings frame hframe := by
    have hne : frame ≠ scope.frame := (hframe.trans_le hscope).ne
    show (n.store.set scope name v).bindings frame = _
    rw [Store.bindings_set, if_neg fun hand => hne hand.1]
    exact h.bindings frame hframe

theorem drain (h : m.KeptBy n) : m.KeptBy n.drain.2 := ⟨h.size, h.closures, h.bindings⟩

end Machine.KeptBy

/-- A run beside itself, which keeps the frames of a machine as they are. Statements are
evaluated in later frames only. -/
def Simulation.keeping (base : Machine) : Simulation Unit where
  closures _ f g := g = f ∧ True
  scopes _ s t := t = s
  owned _ s t := t = s ∧ base.store.frames.size ≤ s.frame
  machines _ m n := n = m ∧ base.KeptBy m
  closures_mono _ h := h
  scopes_mono _ h := h
  owned_mono _ h := h
  scopes_of_owned h := h.1
  scopes_of_closures h := h.1 ▸ rfl
  parameters h := congrArg Closure.parameters h.1
  body h := congrArg Closure.body h.1
  faithful _ :=
    { render := fun h => congrArg Closure.render h.1
      number := fun h h' => by rw [h.1, h'.1] }
  get? hm hs name := by
    obtain ⟨rfl, -⟩ := hm
    subst hs
    exact Value.like_self_option fun _ _ _ _ => trivial
  enclose hm hs := by
    obtain ⟨rfl, hm⟩ := hm
    subst hs
    exact ⟨(), le_rfl, ⟨rfl, hm.enclose _⟩, rfl, hm.size⟩
  newClosure hm hs parameters body := by
    obtain ⟨rfl, hm⟩ := hm
    subst hs
    exact ⟨(), le_rfl, ⟨rfl, hm.size, hm.closures.trans (Nat.le_succ _), hm.bindings⟩, rfl, trivial⟩
  define hm hs name hv := by
    obtain ⟨rfl, hm⟩ := hm
    obtain ⟨rfl, hlater⟩ := hs
    obtain ⟨rfl, -⟩ := Value.like_self_iff.mp hv
    exact ⟨rfl, hm.define hlater name _⟩
  print hm text := by
    obtain ⟨rfl, hm⟩ := hm
    exact ⟨rfl, hm.size, hm.closures, hm.bindings⟩

/-- An expression writes to no frame that is there, however its evaluation ends. -/
theorem Evaluator.keptBy_runExpr (maxDepth : Nat) (x : Expr) (scope : Scope) (m : Machine) :
    m.KeptBy ((standard maxDepth).runExpr x scope m).2 := by
  have hstart : (Simulation.keeping m).machines () m m := ⟨rfl, .refl m⟩
  obtain ⟨-, -, -, -, hkept⟩ := Simulation.finishes_runExpr (s := scope) maxDepth x hstart rfl
  exact hkept

/-! ## Graphs of frames -/

/-- Which frames there are, and for each the frame around it, if it has one. -/
structure Graph where
  size : Nat
  link : Nat → Option Nat

namespace Graph

/-- A later graph has the same frames with the same frames around them, and perhaps more. -/
instance : Preorder Graph where
  le g g' := g.size ≤ g'.size ∧ ∀ frame < g.size, g'.link frame = g.link frame
  le_refl g := ⟨le_rfl, fun _ _ => rfl⟩
  le_trans g₁ g₂ g₃ h h' := ⟨h.1.trans h'.1, fun frame hframe =>
    (h'.2 frame (hframe.trans_le h.1)).trans (h.2 frame hframe)⟩

/-- A frame of a graph and the frames around it, from link to link. -/
inductive Chain (g : Graph) : List Nat → Prop
  | root {frame : Nat} (hframe : frame < g.size) (hlink : g.link frame = none) : Chain g [frame]
  | inside {frame outer : Nat} {rest : List Nat} (hframe : frame < g.size)
      (hlink : g.link frame = some outer) (h : Chain g (outer :: rest)) :
    Chain g (frame :: outer :: rest)

theorem Chain.mono {g g' : Graph} (hle : g ≤ g') {frames : List Nat} (h : g.Chain frames) :
    g'.Chain frames := by
  induction h with
  | root hframe hlink => exact .root (hframe.trans_le hle.1) ((hle.2 _ hframe).trans hlink)
  | inside hframe hlink _ ih =>
    exact .inside (hframe.trans_le hle.1) ((hle.2 _ hframe).trans hlink) ih

theorem Chain.lt_size {g : Graph} {frames : List Nat} (h : g.Chain frames) :
    ∀ frame ∈ frames, frame < g.size := by
  induction h with
  | root hframe _ =>
    intro frame hmem
    rwa [List.mem_singleton.mp hmem]
  | inside hframe _ _ ih =>
    intro frame hmem
    rcases List.mem_cons.mp hmem with rfl | hmem
    · exact hframe
    · exact ih frame hmem

/-- One more frame, inside another. -/
def extend (g : Graph) (outer : Nat) : Graph :=
  ⟨g.size + 1, Function.update g.link g.size (some outer)⟩

theorem le_extend (g : Graph) (outer : Nat) : g ≤ g.extend outer :=
  ⟨Nat.le_succ _, fun _ hframe => Function.update_of_ne hframe.ne _ _⟩

theorem Chain.extend {g : Graph} {outer : Nat} {rest : List Nat} (h : g.Chain (outer :: rest)) :
    (g.extend outer).Chain (g.size :: outer :: rest) :=
  .inside (Nat.lt_succ_self _) (Function.update_self _ _ _) (h.mono (g.le_extend outer))

end Graph

/-- Every value that is stored has a property. -/
def Machine.Stores (P : Value → Prop) (m : Machine) : Prop :=
  ∀ frame, ∀ p ∈ m.store.bindings frame, P p.2

namespace Machine.Stores

variable {P : Value → Prop} {m : Machine}

theorem get? (h : m.Stores P) {scope : Scope} {name : String} {v : Value}
    (hv : m.store.get? scope name = some v) : P v := by
  obtain ⟨frame, hmem⟩ := Store.exists_mem_of_find? hv
  exact h frame _ hmem

theorem enclose (h : m.Stores P) (scope : Scope) : (m.enclose scope).2.Stores P := by
  intro frame p hp
  have hsame : (m.enclose scope).2.store.bindings frame = m.store.bindings frame :=
    m.store.bindings_enclose scope frame
  rw [hsame] at hp
  exact h frame p hp

theorem define (h : m.Stores P) (scope : Scope) (name : String) {v : Value} (hv : P v) :
    (m.define scope name v).Stores P := by
  intro frame p hp
  have hset : (m.define scope name v).store.bindings frame = _ :=
    m.store.bindings_set scope name v frame
  rw [hset] at hp
  split at hp
  · rcases Bindings.mem_set hp with rfl | hp
    · exact hv
    · exact h frame p hp
  · exact h frame p hp

theorem imp {P' : Value → Prop} (h : m.Stores P) (himp : ∀ v, P v → P' v) : m.Stores P' :=
  fun frame p hp => himp p.2 (h frame p hp)

end Machine.Stores

/-- Every function in a value was made in a scope of a graph. -/
def Value.On (g : Graph) (v : Value) : Prop := ∀ f, v.Holds f → g.Chain f.scope.chain

theorem Value.On.mono {g g' : Graph} (hle : g ≤ g') {v : Value} (h : v.On g) : v.On g' :=
  fun f hf => (h f hf).mono hle

/-- A machine has the frames of a graph, and every function that is stored on it was made in a
scope of the graph. -/
structure Machine.On (g : Graph) (m : Machine) : Prop where
  size : m.store.frames.size = g.size
  stores : m.Stores (Value.On g)

/-- A run beside itself, whose scopes are those of a graph that only grows. -/
def Simulation.onGraph : Simulation Graph where
  closures g f f' := f' = f ∧ g.Chain f.scope.chain
  scopes g s t := t = s ∧ g.Chain s.chain
  owned g s t := t = s ∧ g.Chain s.chain
  machines g m n := n = m ∧ m.On g
  closures_mono hle h := ⟨h.1, h.2.mono hle⟩
  scopes_mono hle h := ⟨h.1, h.2.mono hle⟩
  owned_mono hle h := ⟨h.1, h.2.mono hle⟩
  scopes_of_owned h := h
  scopes_of_closures h := ⟨h.1 ▸ rfl, h.2⟩
  parameters h := congrArg Closure.parameters h.1
  body h := congrArg Closure.body h.1
  faithful _ :=
    { render := fun h => congrArg Closure.render h.1
      number := fun h h' => by rw [h.1, h'.1] }
  get? hm hs name := by
    obtain ⟨rfl, hm⟩ := hm
    obtain ⟨rfl, -⟩ := hs
    exact Value.like_self_option fun v hv => hm.stores.get? hv
  enclose {g _ m _ s} hm hs := by
    obtain ⟨rfl, hm⟩ := hm
    obtain ⟨rfl, hs⟩ := hs
    have hle := g.le_extend s.frame
    have hsize : (m.enclose s).2.store.frames.size = g.size + 1 := by
      rw [← hm.size]
      exact m.store.size_enclose s
    have hchain : (m.enclose s).1.chain = g.size :: s.chain := by
      rw [← hm.size]
      rfl
    refine ⟨g.extend s.frame, hle, ⟨rfl, hsize, ?_⟩, rfl, ?_⟩
    · exact (hm.stores.enclose s).imp fun v hv => hv.mono hle
    · rw [hchain]
      exact hs.extend
  newClosure {g _ _ _ _} hm hs parameters body := by
    obtain ⟨rfl, hm⟩ := hm
    obtain ⟨rfl, hs⟩ := hs
    exact ⟨g, le_rfl, ⟨rfl, hm.size, hm.stores⟩, rfl, hs⟩
  define {g _ m _ s _ _} hm hs name hv := by
    obtain ⟨rfl, hm⟩ := hm
    obtain ⟨rfl, -⟩ := hs
    obtain ⟨rfl, hv⟩ := Value.like_self_iff.mp hv
    exact ⟨rfl, (m.store.size_set s name _).trans hm.size, hm.stores.define s name hv⟩
  print hm text := by
    obtain ⟨rfl, hm⟩ := hm
    exact ⟨rfl, hm.size, hm.stores⟩

namespace Evaluator

variable {g : Graph} {scope : Scope} {m : Machine}

/-- How a run on a graph ends: on a graph with the same frames and perhaps more, and so does
every function in its value. -/
def EndsOn (g : Graph) (p : Outcome × Machine) : Prop :=
  ∃ g', g ≤ g' ∧ p.2.On g' ∧ ∀ v, p.1 = .value v → v.On g'

theorem endsOn_of_finishes {p : Outcome × Machine} (h : Simulation.onGraph.Finishes g p p) :
    EndsOn g p := by
  obtain ⟨g', hle, houtcome, -, hm⟩ := h
  refine ⟨g', hle, hm, fun v hv => ?_⟩
  rw [hv] at houtcome
  cases houtcome with
  | value hlike => exact (Value.like_self_iff.mp hlike).2

/-- An expression leaves every frame where it is in the graph. -/
theorem endsOn_runExpr (maxDepth : Nat) (x : Expr) (hm : m.On g) (hs : g.Chain scope.chain) :
    EndsOn g ((standard maxDepth).runExpr x scope m) :=
  endsOn_of_finishes (Simulation.finishes_runExpr maxDepth x ⟨rfl, hm⟩ ⟨rfl, hs⟩)

/-- A statement leaves every frame where it is in the graph. -/
theorem endsOn_runStmt (maxDepth : Nat) (s : Stmt) (hm : m.On g) (hs : g.Chain scope.chain) :
    EndsOn g ((standard maxDepth).runStmt s scope m) :=
  endsOn_of_finishes (Simulation.finishes_runStmt maxDepth s ⟨rfl, hm⟩ ⟨rfl, hs⟩)

/-! ## Statements -/

/-- A statement is a `let` of a name whose value is `v`, which is no signal. -/
def Binds (e : Evaluator) (s : Stmt) (scope : Scope) (m : Machine) (name : String) (v : Value) :
    Prop :=
  ∃ token id x, s = .bind token id x ∧ id.name = name ∧ (e.runExpr x scope m).1 = .value v ∧
    v.isSignal = false

theorem unlessSignal_apply (x : Eval Value) (k : Value → Eval Value) (m : Machine) :
    Eval.unlessSignal x k m =
      match x m with
      | .ok v m' => if v.isSignal then .ok v m' else k v m'
      | .error why m' => .error why m' := by
  show EStateM.bind x _ m = _
  unfold EStateM.bind
  cases x m with
  | ok v m' =>
    dsimp only
    split
    · rfl
    · rfl
  | error why m' => rfl

/-- A `let` whose value is no signal writes that value when it has been evaluated. -/
theorem runStmt_of_binds {e : Evaluator} {s : Stmt} {name : String} {v : Value}
    (h : e.Binds s scope m name v) :
    ∃ x, (e.runStmt s scope m).2 = (e.runExpr x scope m).2.define scope name v := by
  obtain ⟨token, id, x, rfl, rfl, hx, hv⟩ := h
  refine ⟨x, ?_⟩
  unfold runStmt runExpr finish at *
  rw [Stmt.eval, unlessSignal_apply]
  cases hr : x.eval e.library e.apply scope m with
  | ok u m' =>
    rw [hr] at hx
    obtain rfl := Outcome.value.inj hx
    dsimp only
    rw [hv]
    rfl
  | error why m' =>
    rw [hr] at hx
    cases hx

/-- Any other statement leaves the machine as it is, or as an expression in it does. -/
theorem runStmt_of_not_binds {e : Evaluator} {s : Stmt}
    (h : ∀ name v, ¬e.Binds s scope m name v) :
    (e.runStmt s scope m).2 = m ∨ ∃ x, (e.runStmt s scope m).2 = (e.runExpr x scope m).2 := by
  cases s with
  | bind token id x =>
    have hsignal : ∀ v, (e.runExpr x scope m).1 = .value v → v.isSignal = true := by
      intro v hx
      by_contra hv
      exact h id.name v ⟨token, id, x, rfl, rfl, hx, Bool.eq_false_iff.mpr hv⟩
    refine .inr ⟨x, ?_⟩
    unfold runStmt runExpr finish at *
    rw [Stmt.eval, unlessSignal_apply]
    cases hr : x.eval e.library e.apply scope m with
    | ok u m' =>
      rw [hr] at hsignal
      dsimp only
      rw [hsignal u rfl]
      rfl
    | error why m' => rfl
  | ret token value =>
    cases value with
    | none => exact .inl rfl
    | some x =>
      refine .inr ⟨x, ?_⟩
      unfold runStmt runExpr finish
      rw [Stmt.eval, unlessSignal_apply]
      cases x.eval e.library e.apply scope m with
      | ok u m' =>
        dsimp only
        cases u.isSignal <;> rfl
      | error why m' => rfl
  | expr token x => exact .inr ⟨x, rfl⟩

/-- A statement other than a `let` that succeeds writes to no frame that is there. -/
theorem keptBy_runStmt (maxDepth : Nat) {s : Stmt}
    (h : ∀ name v, ¬(standard maxDepth).Binds s scope m name v) :
    m.KeptBy ((standard maxDepth).runStmt s scope m).2 := by
  rcases runStmt_of_not_binds h with heq | ⟨x, heq⟩
  · rw [heq]
    exact .refl m
  · rw [heq]
    exact keptBy_runExpr maxDepth x scope m

/-- A `let` that succeeds writes its name in the frame of its scope, and nothing else in any
frame that is there. -/
theorem bindings_runStmt_of_binds (maxDepth : Nat) {s : Stmt} {name : String} {v : Value}
    (h : (standard maxDepth).Binds s scope m name v) {frame : Nat}
    (hframe : frame < m.store.frames.size) :
    ((standard maxDepth).runStmt s scope m).2.store.bindings frame =
      if frame = scope.frame then (m.store.bindings frame).set name v
      else m.store.bindings frame := by
  obtain ⟨x, heq⟩ := runStmt_of_binds h
  have hkept := keptBy_runExpr maxDepth x scope m
  have hset : (((standard maxDepth).runExpr x scope m).2.define scope name v).store.bindings frame =
      _ := Store.bindings_set _ scope name v frame
  rw [heq, hset, hkept.bindings frame hframe]
  simp [hframe.trans_le hkept.size]

/-- Evaluation on a machine that is on a graph, in a scope of the graph.

An expression, however it ends, leaves the bindings of every frame as they are and every frame
inside the same other one. So it changes nothing that is seen from any scope of the graph, be it
around the expression, where a function was made, or where it is called. A statement does not
change what is around a frame either. If it is a `let` that succeeds, it writes the name in
the frame of its scope. If not, it writes nothing to a frame that was there. -/
theorem evaluation_keeps_frames (maxDepth : Nat) (hm : m.On g) (hs : g.Chain scope.chain) :
    (∀ x : Expr, EndsOn g ((standard maxDepth).runExpr x scope m) ∧
        (∀ frame < g.size, ((standard maxDepth).runExpr x scope m).2.store.bindings frame =
          m.store.bindings frame) ∧
        ∀ other name, g.Chain other.chain →
          ((standard maxDepth).runExpr x scope m).2.store.get? other name =
            m.store.get? other name) ∧
      ∀ s : Stmt, EndsOn g ((standard maxDepth).runStmt s scope m) ∧
        (∀ name v, (standard maxDepth).Binds s scope m name v → ∀ frame < g.size,
          ((standard maxDepth).runStmt s scope m).2.store.bindings frame =
            if frame = scope.frame then (m.store.bindings frame).set name v
            else m.store.bindings frame) ∧
        ((∀ name v, ¬(standard maxDepth).Binds s scope m name v) → ∀ frame < g.size,
          ((standard maxDepth).runStmt s scope m).2.store.bindings frame =
            m.store.bindings frame) := by
  rw [← hm.size]
  refine ⟨fun x => ?_, fun s => ?_⟩
  · have hkept := keptBy_runExpr maxDepth x scope m
    refine ⟨endsOn_runExpr maxDepth x hm hs, hkept.bindings, fun other name hother => ?_⟩
    refine Store.find?_congr (fun frame hframe => hkept.bindings frame ?_) name
    rw [hm.size]
    exact hother.lt_size frame hframe
  · exact ⟨endsOn_runStmt maxDepth s hm hs,
      fun name v h frame => bindings_runStmt_of_binds maxDepth h,
      fun h => (keptBy_runStmt maxDepth h).bindings⟩

/-- A `let` in a branch does not change what its name stands for outside. -/
theorem evaluation_keeps_frames_branch :
    ∃ (g : Graph) (m : Machine), m.On g ∧ g.Chain [0] ∧
      m.store.get? ⟨0, []⟩ "x" = some .null ∧
      ((standard 0).runExpr (.conditional default (.boolean default true)
        (.mk default [.bind default ⟨default, "x"⟩ (.boolean default true)]) none)
        ⟨0, []⟩ m).2.store.get? ⟨0, []⟩ "x" = some .null := by
  have hchain : Graph.Chain ⟨1, fun _ => none⟩ (Scope.chain ⟨0, []⟩) := .root Nat.one_pos rfl
  have hon : Machine.On ⟨1, fun _ => none⟩ ⟨⟨#[[("x", .null)]]⟩, 0, ""⟩ := by
    refine ⟨rfl, fun frame p hp f hf => ?_⟩
    have hp' : p = ("x", .null) := by
      cases frame with
      | zero => exact List.mem_singleton.mp hp
      | succ frame => exact absurd hp (by simp [Store.bindings])
    subst hp'
    cases hf
  have hkeeps := (@evaluation_keeps_frames _ ⟨0, []⟩ _ 0 hon hchain).1
  exact ⟨_, _, hon, hchain, rfl, ((hkeeps _).2.2 ⟨0, []⟩ "x" hchain).trans rfl⟩

end Evaluator

end Monkey
