import Mathlib
import Monkey.Proofs.Evaluation.Likeness
import Monkey.Proofs.Hashes

/-!
# Equality

Two values are equal if they are built in the same way from equal parts (`Value.Equals`,
`Value.equal_eq_true_iff`). The parts that matter are numbers, texts, names of native functions
and which function a function is. Only for floating-point numbers is this not the identity: zero
has two forms, and a NaN differs from itself.

So equality is symmetric and transitive, and a value is equal to itself just if there is no NaN
in it (`Value.equals_self_iff`). Equal values are of the same kind and are filed under the same
hash key. What `==` and `!=` give is this equality, for operands of any kinds
(`equal_lawful`).
-/

namespace Monkey

/-! ## Floating-point numbers -/

namespace Binary64

theorem beq_symm {x y : Float} (h : (x == y) = true) : (y == x) = true := by
  rw [Float.beq_iff_ne_nan_and_eq] at h ⊢
  obtain ⟨hx, hy, rfl | ⟨rfl, rfl⟩ | ⟨rfl, rfl⟩⟩ := h
  · exact ⟨hy, hx, .inl rfl⟩
  · exact ⟨hy, hx, .inr (.inr ⟨rfl, rfl⟩)⟩
  · exact ⟨hy, hx, .inr (.inl ⟨rfl, rfl⟩)⟩

theorem beq_trans {x y z : Float} (hxy : (x == y) = true) (hyz : (y == z) = true) :
    (x == z) = true := by
  rw [Float.beq_iff_ne_nan_and_eq] at *
  obtain ⟨hx, -, hxy⟩ := hxy
  obtain ⟨-, hz, hyz⟩ := hyz
  refine ⟨hx, hz, ?_⟩
  -- if both numbers pass through a zero, the first and the last zero are the same
  rcases hxy with rfl | ⟨rfl, rfl⟩ | ⟨rfl, rfl⟩
  · exact hyz
  · rcases hyz with rfl | ⟨hzero, rfl⟩ | ⟨-, rfl⟩
    · exact .inr (.inl ⟨rfl, rfl⟩)
    · exact .inl hzero.symm
    · exact .inl rfl
  · rcases hyz with rfl | ⟨-, rfl⟩ | ⟨hzero, rfl⟩
    · exact .inr (.inr ⟨rfl, rfl⟩)
    · exact .inl rfl
    · exact .inl hzero.symm

theorem beq_self_iff_not_isNaN (x : Float) : (x == x) = true ↔ x.isNaN = false := by
  rw [Float.beq_self_iff, Float.isNaN_eq_decide_eq_nan, decide_eq_false_iff_not]

end Binary64

namespace Value

/-! ## Equal values -/

/-- Values that are built in the same way from equal parts. -/
inductive Equals : Value → Value → Prop
  | integer (n : Int64) : Equals (integer n) (integer n)
  | float {x y : Float} (h : (x == y) = true) : Equals (float x) (float y)
  | boolean (b : Bool) : Equals (boolean b) (boolean b)
  | string (s : String) : Equals (string s) (string s)
  | null : Equals null null
  | returned {v w : Value} (h : Equals v w) : Equals (returned v) (returned w)
  | error (message : String) : Equals (error message) (error message)
  | function {f g : Closure} (h : f.number = g.number) : Equals (function f) (function g)
  | native {f g : Native} (h : f.name = g.name) : Equals (native f) (native g)
  | array {vs ws : List Value} (h : List.Forall₂ Equals vs ws) : Equals (array vs) (array ws)
  | hash {es ds : List (HashKey × Value × Value)} (h : List.Forall₂ (Entrywise Equals) es ds) :
    Equals (hash es) (hash ds)

mutual

theorem Equals.symm : ∀ (v : Value) {w : Value}, Equals v w → Equals w v
  | .integer _, _, .integer n => .integer n
  | .float _, _, .float h => .float (Binary64.beq_symm h)
  | .boolean _, _, .boolean b => .boolean b
  | .string _, _, .string s => .string s
  | .null, _, .null => .null
  | .returned v, _, .returned h => .returned (Equals.symm v h)
  | .error _, _, .error message => .error message
  | .function _, _, .function h => .function h.symm
  | .native _, _, .native h => .native h.symm
  | .array vs, _, .array h => .array (Equals.symmAll vs h)
  | .hash es, _, .hash h => .hash (Equals.symmEntries es h)
termination_by structural v => v

theorem Equals.symmAll : ∀ (vs : List Value) {ws : List Value},
    List.Forall₂ Equals vs ws → List.Forall₂ Equals ws vs
  | [], _, .nil => .nil
  | v :: vs, _, .cons h hs => .cons (Equals.symm v h) (Equals.symmAll vs hs)
termination_by structural vs => vs

theorem Equals.symmEntries : ∀ (es : List (HashKey × Value × Value))
    {ds : List (HashKey × Value × Value)},
    List.Forall₂ (Entrywise Equals) es ds → List.Forall₂ (Entrywise Equals) ds es
  | [], _, .nil => .nil
  | (_, k, v) :: es, _, .cons (.mk filed hk hv) hs =>
    .cons (.mk filed (Equals.symm k hk) (Equals.symm v hv)) (Equals.symmEntries es hs)
termination_by structural es => es

end

mutual

theorem Equals.trans : ∀ (v : Value) {w u : Value}, Equals v w → Equals w u → Equals v u
  | .integer _, _, _, .integer _, .integer n => .integer n
  | .float _, _, _, .float h, .float h' => .float (Binary64.beq_trans h h')
  | .boolean _, _, _, .boolean _, .boolean b => .boolean b
  | .string _, _, _, .string _, .string s => .string s
  | .null, _, _, .null, .null => .null
  | .returned v, _, _, .returned h, .returned h' => .returned (Equals.trans v h h')
  | .error _, _, _, .error _, .error message => .error message
  | .function _, _, _, .function h, .function h' => .function (h.trans h')
  | .native _, _, _, .native h, .native h' => .native (h.trans h')
  | .array vs, _, _, .array h, .array h' => .array (Equals.transAll vs h h')
  | .hash es, _, _, .hash h, .hash h' => .hash (Equals.transEntries es h h')
termination_by structural v => v

theorem Equals.transAll : ∀ (vs : List Value) {ws us : List Value},
    List.Forall₂ Equals vs ws → List.Forall₂ Equals ws us → List.Forall₂ Equals vs us
  | [], _, _, .nil, .nil => .nil
  | v :: vs, _, _, .cons h hs, .cons h' hs' =>
    .cons (Equals.trans v h h') (Equals.transAll vs hs hs')
termination_by structural vs => vs

theorem Equals.transEntries : ∀ (es : List (HashKey × Value × Value))
    {ds cs : List (HashKey × Value × Value)}, List.Forall₂ (Entrywise Equals) es ds →
      List.Forall₂ (Entrywise Equals) ds cs → List.Forall₂ (Entrywise Equals) es cs
  | [], _, _, .nil, .nil => .nil
  | (_, k, v) :: es, _, _, .cons (.mk _ hk hv) hs, .cons (.mk filed hk' hv') hs' =>
    .cons (.mk filed (Equals.trans k hk hk') (Equals.trans v hv hv'))
      (Equals.transEntries es hs hs')
termination_by structural es => es

end

mutual

/-- Equality compares what a value is built from. -/
theorem equal_eq_true_iff : ∀ v w : Value, v.equal w = true ↔ Equals v w
  | .integer m, w => by
    cases w with
    | integer n => exact beq_iff_eq.trans ⟨fun h => h ▸ .integer m, fun | .integer _ => rfl⟩
    | _ => exact ⟨nofun, nofun⟩
  | .float x, w => by
    cases w with
    | float y => exact ⟨.float, fun | .float h => h⟩
    | _ => exact ⟨nofun, nofun⟩
  | .boolean b, w => by
    cases w with
    | boolean c => exact beq_iff_eq.trans ⟨fun h => h ▸ .boolean b, fun | .boolean _ => rfl⟩
    | _ => exact ⟨nofun, nofun⟩
  | .string s, w => by
    cases w with
    | string t => exact beq_iff_eq.trans ⟨fun h => h ▸ .string s, fun | .string _ => rfl⟩
    | _ => exact ⟨nofun, nofun⟩
  | .null, w => by
    cases w with
    | null => exact ⟨fun _ => .null, fun _ => rfl⟩
    | _ => exact ⟨nofun, nofun⟩
  | .returned v, w => by
    cases w with
    | returned w =>
      have hinner := equal_eq_true_iff v w
      exact ⟨fun h => .returned (hinner.mp h), fun | .returned h => hinner.mpr h⟩
    | _ => exact ⟨nofun, nofun⟩
  | .error message, w => by
    cases w with
    | error other => exact beq_iff_eq.trans ⟨fun h => h ▸ .error message, fun | .error _ => rfl⟩
    | _ => exact ⟨nofun, nofun⟩
  | .function f, w => by
    cases w with
    | function g => exact beq_iff_eq.trans ⟨.function, fun | .function h => h⟩
    | _ => exact ⟨nofun, nofun⟩
  | .native f, w => by
    cases w with
    | native g => exact beq_iff_eq.trans ⟨.native, fun | .native h => h⟩
    | _ => exact ⟨nofun, nofun⟩
  | .array vs, w => by
    cases w with
    | array ws =>
      have hall := equalAll_eq_true_iff vs ws
      exact ⟨fun h => .array (hall.mp h), fun | .array h => hall.mpr h⟩
    | _ => exact ⟨nofun, nofun⟩
  | .hash es, w => by
    cases w with
    | hash ds =>
      have hall := equalEntries_eq_true_iff es ds
      exact ⟨fun h => .hash (hall.mp h), fun | .hash h => hall.mpr h⟩
    | _ => exact ⟨nofun, nofun⟩
termination_by structural v => v

theorem equalAll_eq_true_iff : ∀ vs ws : List Value,
    equalAll vs ws = true ↔ List.Forall₂ Equals vs ws
  | [], [] => ⟨fun _ => .nil, fun _ => rfl⟩
  | [], _ :: _ => ⟨nofun, nofun⟩
  | _ :: _, [] => ⟨nofun, nofun⟩
  | v :: vs, w :: ws => by
    rw [equalAll, Bool.and_eq_true, List.forall₂_cons, equal_eq_true_iff v w,
      equalAll_eq_true_iff vs ws]
termination_by structural vs => vs

theorem equalEntries_eq_true_iff : ∀ es ds : List (HashKey × Value × Value),
    equalEntries es ds = true ↔ List.Forall₂ (Entrywise Equals) es ds
  | [], [] => ⟨fun _ => .nil, fun _ => rfl⟩
  | [], _ :: _ => ⟨nofun, nofun⟩
  | _ :: _, [] => ⟨nofun, nofun⟩
  | (hk, k, v) :: es, (hl, l, w) :: ds => by
    have hentry : hk = hl ∧ Equals k l ∧ Equals v w ↔
        Entrywise Equals (hk, k, v) (hl, l, w) := by
      constructor
      · rintro ⟨rfl, hkey, hvalue⟩
        exact .mk hk hkey hvalue
      · rintro ⟨_, hkey, hvalue⟩
        exact ⟨rfl, hkey, hvalue⟩
    rw [equalEntries, List.forall₂_cons, ← hentry, ← equal_eq_true_iff k l,
      ← equal_eq_true_iff v w, ← equalEntries_eq_true_iff es ds]
    simp only [Bool.and_eq_true, beq_iff_eq, and_assoc]
termination_by structural es => es

end

/-! ## Values that differ from themselves -/

mutual

/-- Whether there is a NaN in a value. Functions are not looked into. -/
def holdsNaN : Value → Bool
  | float x => x.isNaN
  | returned v => v.holdsNaN
  | array vs => anyHoldsNaN vs
  | hash es => entryHoldsNaN es
  | _ => false
termination_by structural v => v

/-- Whether there is a NaN in one of some values. -/
def anyHoldsNaN : List Value → Bool
  | [] => false
  | v :: vs => v.holdsNaN || anyHoldsNaN vs
termination_by structural vs => vs

/-- Whether there is a NaN in a key or a value of one of some entries. -/
def entryHoldsNaN : List (HashKey × Value × Value) → Bool
  | [] => false
  | (_, k, v) :: es => k.holdsNaN || v.holdsNaN || entryHoldsNaN es
termination_by structural es => es

end

mutual

/-- A value is equal to itself unless there is a NaN in it. -/
theorem equals_self_iff : ∀ v : Value, Equals v v ↔ v.holdsNaN = false
  | .integer n => ⟨fun _ => rfl, fun _ => .integer n⟩
  | .float x =>
    ⟨fun | .float h => (Binary64.beq_self_iff_not_isNaN x).mp h,
      fun h => .float ((Binary64.beq_self_iff_not_isNaN x).mpr h)⟩
  | .boolean b => ⟨fun _ => rfl, fun _ => .boolean b⟩
  | .string s => ⟨fun _ => rfl, fun _ => .string s⟩
  | .null => ⟨fun _ => rfl, fun _ => .null⟩
  | .returned v =>
    ⟨fun | .returned h => (equals_self_iff v).mp h, fun h => .returned ((equals_self_iff v).mpr h)⟩
  | .error message => ⟨fun _ => rfl, fun _ => .error message⟩
  | .function _ => ⟨fun _ => rfl, fun _ => .function rfl⟩
  | .native _ => ⟨fun _ => rfl, fun _ => .native rfl⟩
  | .array vs =>
    ⟨fun | .array h => (forall₂_equals_self_iff vs).mp h,
      fun h => .array ((forall₂_equals_self_iff vs).mpr h)⟩
  | .hash es =>
    ⟨fun | .hash h => (forall₂_entrywise_self_iff es).mp h,
      fun h => .hash ((forall₂_entrywise_self_iff es).mpr h)⟩
termination_by structural v => v

theorem forall₂_equals_self_iff : ∀ vs : List Value,
    List.Forall₂ Equals vs vs ↔ anyHoldsNaN vs = false
  | [] => ⟨fun _ => rfl, fun _ => .nil⟩
  | v :: vs => by
    rw [anyHoldsNaN, Bool.or_eq_false_iff, List.forall₂_cons, equals_self_iff v,
      forall₂_equals_self_iff vs]
termination_by structural vs => vs

theorem forall₂_entrywise_self_iff : ∀ es : List (HashKey × Value × Value),
    List.Forall₂ (Entrywise Equals) es es ↔ entryHoldsNaN es = false
  | [] => ⟨fun _ => rfl, fun _ => .nil⟩
  | (filed, k, v) :: es => by
    have hentry : Equals k k ∧ Equals v v ↔ Entrywise Equals (filed, k, v) (filed, k, v) :=
      ⟨fun h => .mk filed h.1 h.2, fun | .mk _ hkey hvalue => ⟨hkey, hvalue⟩⟩
    rw [entryHoldsNaN, Bool.or_eq_false_iff, Bool.or_eq_false_iff, List.forall₂_cons, ← hentry,
      equals_self_iff k, equals_self_iff v, forall₂_entrywise_self_iff es]
termination_by structural es => es

end

/-! ## What equal values have in common -/

theorem Equals.kind_eq {v w : Value} (h : Equals v w) : v.kind = w.kind := by
  cases h <;> rfl

theorem Equals.hashKey?_eq {v w : Value} (h : Equals v w) : v.hashKey? = w.hashKey? := by
  cases h <;> rfl

/-! ## Operators -/

/-- Integers, floating-point numbers and strings have operators of their own, and they compare
as all values do. -/
theorem binary_equals (a b : Value) : binary "==" a b = boolean (a.equal b) := by
  unfold binary
  split <;> rfl

theorem binary_differs (a b : Value) : binary "!=" a b = boolean (!a.equal b) := by
  unfold binary
  split <;> rfl

end Value

/-- An operator is applied to what its operands give, if neither gives a signal. -/
theorem Evaluator.runExpr_binary {e : Evaluator} {l r : Expr} {scope : Scope}
    {m m₁ m₂ : Machine} {a b : Value} (hl : e.runExpr l scope m = (.value a, m₁))
    (ha : a.isSignal = false) (hr : e.runExpr r scope m₁ = (.value b, m₂))
    (hb : b.isSignal = false) (token : Token) (operator : String) :
    e.runExpr (.binary token operator l r) scope m = (.value (Value.binary operator a b), m₂) := by
  rw [runExpr_eq_value_iff] at hl hr ⊢
  rw [Expr.eval]
  simp only [Eval.unlessSignal, bind, EStateM.bind, hl, ha, hr, hb, Bool.false_eq_true, if_false]
  rfl

/-- **Equality is lawful.** It is symmetric and transitive, and a value is equal to itself just if
there is no NaN in it. Equal values have the same kind and the same hash key. If operands give
values that are no signals, `==` and `!=` between them give whether the values are equal, and
never an error. -/
theorem equal_lawful :
    (∀ a b : Value, a.equal b = b.equal a) ∧
    (∀ a b c : Value, a.equal b = true → b.equal c = true → a.equal c = true) ∧
    (∀ a : Value, a.equal a = true ↔ a.holdsNaN = false) ∧
    (∀ a b : Value, a.equal b = true → a.kind = b.kind ∧ a.hashKey? = b.hashKey?) ∧
    ∀ (e : Evaluator) (l r : Expr) (scope : Scope) (m m₁ m₂ : Machine) (a b : Value),
      e.runExpr l scope m = (.value a, m₁) → a.isSignal = false →
      e.runExpr r scope m₁ = (.value b, m₂) → b.isSignal = false → ∀ token : Token,
        e.runExpr (.binary token "==" l r) scope m = (.value (.boolean (a.equal b)), m₂) ∧
        e.runExpr (.binary token "!=" l r) scope m = (.value (.boolean (!a.equal b)), m₂) := by
  refine ⟨fun a b => ?_, fun a b c hab hbc => ?_, fun a => ?_, fun a b hab => ?_, ?_⟩
  · rw [Bool.eq_iff_iff, Value.equal_eq_true_iff, Value.equal_eq_true_iff]
    exact ⟨Value.Equals.symm a, Value.Equals.symm b⟩
  · rw [Value.equal_eq_true_iff] at *
    exact Value.Equals.trans a hab hbc
  · rw [Value.equal_eq_true_iff]
    exact Value.equals_self_iff a
  · rw [Value.equal_eq_true_iff] at hab
    exact ⟨hab.kind_eq, hab.hashKey?_eq⟩
  · intro e l r scope m m₁ m₂ a b hl ha hr hb token
    rw [← Value.binary_equals, ← Value.binary_differs]
    exact ⟨Evaluator.runExpr_binary hl ha hr hb token "==",
      Evaluator.runExpr_binary hl ha hr hb token "!="⟩

/-- An array with a NaN in it differs from itself, and the operators say so. -/
theorem equal_lawful_nan :
    let x : Expr := .array default [.integer default 1, .float default Float.nan]
    let v : Value := .array [.integer 1, .float Float.nan]
    (Evaluator.standard 0).runExpr x ⟨0, []⟩ Machine.new = (.value v, Machine.new) ∧
      (Evaluator.standard 0).runExpr (.binary default "==" x x) ⟨0, []⟩ Machine.new =
        (.value (.boolean false), Machine.new) ∧
      (Evaluator.standard 0).runExpr (.binary default "!=" x x) ⟨0, []⟩ Machine.new =
        (.value (.boolean true), Machine.new) := by
  intro x v
  obtain ⟨-, -, hself, -, hoperators⟩ := equal_lawful
  have hx : (Evaluator.standard 0).runExpr x ⟨0, []⟩ Machine.new = (.value v, Machine.new) := rfl
  have hv : v.equal v = false := by
    rw [Bool.eq_false_iff, ne_eq, hself]
    decide
  have hboth := hoperators (.standard 0) x x ⟨0, []⟩ _ _ _ v v hx rfl hx rfl default
  rw [hv] at hboth
  exact ⟨hx, hboth⟩

end Monkey
