import Monkey.Evaluator
import Monkey.Proofs.Printing.RoundTrip

/-!
# Integer arithmetic

Integers of the language have 64 bits, and an operation whose result does not fit is an error. So
an arithmetic expression either has the value that it has in the integers, or it is an error, and
then it is the error of the first operation that fails. Operands come before their operation and
the left one before the right one, so the operations of a term are listed in the order in which
they are carried out (`Term.operations`).

`Term.value` is the value in the integers, with no regard to 64 bits, and `Term.fault?` tells from
the exact values of the operands what goes wrong with the outermost operation of a term.
`runSource_text` says that a term, written out with all its parentheses, parsed and run, gives its
value or the fault of the first operation that has one.

A number is shown as a text that is no literal if it is negative: the sign is an operator. The text
still denotes the number, but for the smallest one, whose digits by themselves are out of range
(`runSource_render_integer`).
-/

namespace Monkey

open Grammar (Expression Statement Statements Derives)
open Token (Kind)

/-! ## An expression as a program -/

/-- A text whose tokens are an expression is a program of one statement. -/
theorem parse_of_expression {source : String} {x : Expr}
    (h : Expression .equality (Token.scan source).tokens x) :
    ∃ t, parse source = ⟨⟨[.expr t x]⟩, []⟩ := by
  obtain ⟨t, ts, hts, -⟩ := h.exists_cons
  rw [hts] at h
  have hstatement : Statement .eof (t :: ts) (.expr t x) := .unclosed h (by decide)
  have hderives : Derives (Token.scan source).tokens ⟨[.expr t x]⟩ := by
    have hall : Statements .eof (t :: ts ++ []) [.expr t x] := .cons hstatement .nil
    rwa [List.append_nil, ← hts] at hall
  exact ⟨t, Grammar.parse_of_derives (Token.kind_eof_scan source) hderives⟩

/-- What is known already to be a value is handed on or not, by whether it is a signal. -/
theorem Eval.unlessSignal_pure (v : Value) (k : Value → Eval Value) :
    unlessSignal (pure v) k = if v.isSignal then pure v else k v := rfl

/-- Running an expression that is a program of its own gives the value of the expression. -/
theorem Evaluator.runSource_of_expression (e : Evaluator) {source : String} {x : Expr} {v : Value}
    {scope : Scope} (h : Expression .equality (Token.scan source).tokens x)
    (hx : x.eval e.library e.apply scope = pure v) (hv : v.unwrapReturned = v) (m : Machine) :
    e.runSource source scope m = (.ran (.value v), m) := by
  obtain ⟨t, hparse⟩ := parse_of_expression h
  have hstatements :
      Stmt.evalAll e.library e.apply [.expr t x] .null scope = (pure v : Eval Value) := by
    rw [Stmt.evalAll, Stmt.eval, hx, Eval.unlessSignal_pure, Stmt.evalAll, ite_self]
  have heval : (⟨[.expr t x]⟩ : Program).eval e.library e.apply scope = (pure v : Eval Value) := by
    rw [Program.eval, hstatements, pure_bind, hv]
  simp only [runSource, hparse, runProgram, finish, heval]
  rfl

/-- A text that has been run has no diagnostics. -/
theorem Evaluator.diagnostics_eq_nil_of_ran (e : Evaluator) {source : String} {scope : Scope}
    {m m' : Machine} {o : Outcome} (h : e.runSource source scope m = (.ran o, m')) :
    (parse source).diagnostics = [] := by
  simp only [runSource] at h
  split at h
  · next hempty => exact List.isEmpty_iff.mp hempty
  · cases h

/-! ## Terms -/

namespace Arithmetic

/-- An integer literal: a row of digits that denotes at most `2^63 - 1`. -/
structure Numeral where
  text : String
  isDigits : Token.IsDigits text.toList
  small : digitsValue text.toList ≤ 0x7fffffffffffffff

namespace Numeral

/-- The number that a literal denotes. -/
def value (n : Numeral) : Nat := digitsValue n.text.toList

theorem isDigits_toString (n : Nat) : Token.IsDigits (toString n).toList := by
  rw [Nat.toString_eq_repr, Nat.toList_repr]
  exact ⟨Nat.toDigits_ne_nil, fun c => Nat.isDigit_of_mem_toDigits (by decide) (by decide)⟩

theorem digitsValue_toString (n : Nat) : digitsValue (toString n).toList = n := by
  rw [Nat.toString_eq_repr, Nat.toList_repr]
  exact Nat.ofDigitChars_toDigits (by decide) (by decide)

/-- The literal that a number is shown as. -/
def ofNat (n : Nat) (h : n ≤ 0x7fffffffffffffff) : Numeral :=
  ⟨toString n, isDigits_toString n, (digitsValue_toString n).symm ▸ h⟩

@[simp] theorem value_ofNat (n : Nat) (h : n ≤ 0x7fffffffffffffff) : (ofNat n h).value = n :=
  digitsValue_toString n

end Numeral

/-- The operations between two integers. -/
inductive Operator where
  | sum
  | difference
  | product
  | quotient
deriving DecidableEq, Repr

namespace Operator

/-- How an operation is written. -/
def symbol : Operator → String
  | sum => "+"
  | difference => "-"
  | product => "*"
  | quotient => "/"

/-- The result in the integers. A quotient drops its fraction. -/
def compute : Operator → Int → Int → Int
  | sum, a, b => a + b
  | difference, a, b => a - b
  | product, a, b => a * b
  | quotient, a, b => a.tdiv b

end Operator

/-- An arithmetic expression. -/
inductive Term where
  | literal (n : Numeral)
  | negation (t : Term)
  | operation (op : Operator) (left right : Term)

/-- The integers that have 64 bits. -/
def Fits (z : Int) : Prop := -0x8000000000000000 ≤ z ∧ z < 0x8000000000000000

instance (z : Int) : Decidable (Fits z) := inferInstanceAs (Decidable (_ ∧ _))

theorem ofInt_eq (z : Int) : Value.ofInt z =
    if Fits z then .integer (Int64.ofInt z) else Fault.integerOverflow.toValue := by
  have hnarrow : Integer.narrow? z = if Fits z then some (Int64.ofInt z) else none := rfl
  rw [Value.ofInt, hnarrow]
  by_cases hfits : Fits z
  · simp only [if_pos hfits]
  · simp only [if_neg hfits]

namespace Term

/-- Source text, with parentheses around every operation. -/
def text : Term → String
  | literal n => n.text
  | negation t => "(-" ++ t.text ++ ")"
  | operation op l r => "(" ++ l.text ++ " " ++ op.symbol ++ " " ++ r.text ++ ")"

/-- The value in the integers. -/
def value : Term → Int
  | literal n => n.value
  | negation t => -t.value
  | operation op l r => op.compute l.value r.value

/-- The operations of a term, each one after those of its left operand and then those of its
right operand. -/
def operations : Term → List Term
  | literal _ => []
  | negation t => t.operations ++ [negation t]
  | operation op l r => l.operations ++ r.operations ++ [operation op l r]

/-- The outermost operation is a division, and the divisor is zero. -/
def DividesByZero : Term → Prop
  | operation .quotient _ r => r.value = 0
  | _ => False

instance : DecidablePred DividesByZero
  | operation .quotient _ r => inferInstanceAs (Decidable (r.value = 0))
  | operation .sum _ _ | operation .difference _ _ | operation .product _ _ | literal _
  | negation _ => inferInstanceAs (Decidable False)

/-- What is wrong with the outermost operation, if its operands have their exact values. -/
def fault? (t : Term) : Option Fault :=
  if t.DividesByZero then some .divisionByZero
  else if Fits t.value then none
  else some .integerOverflow

theorem fault?_eq_none_iff {t : Term} : t.fault? = none ↔ ¬t.DividesByZero ∧ Fits t.value := by
  unfold fault?
  split
  · simp [*]
  · split <;> simp [*]

/-- What is wrong with the first operation that fails. -/
def firstFault? (t : Term) : Option Fault := t.operations.findSome? fault?

/-- The value of a term, or the error of the first operation that fails. -/
def result (t : Term) : Value :=
  match t.firstFault? with
  | some f => f.toValue
  | none => .integer (Int64.ofInt t.value)

/-! ### Which operation fails first -/

theorem firstFault?_negation (t : Term) :
    (negation t).firstFault? = t.firstFault?.or (negation t).fault? := by
  simp [firstFault?, operations, List.findSome?_append]

theorem firstFault?_operation (op : Operator) (l r : Term) :
    (operation op l r).firstFault? =
      (l.firstFault?.or r.firstFault?).or (operation op l r).fault? := by
  simp [firstFault?, operations, List.findSome?_append, Option.or_assoc]

/-- A term all of whose operations succeed has a value of 64 bits. -/
theorem fits_of_firstFault? : ∀ {t : Term}, t.firstFault? = none → Fits t.value
  | literal n, _ => by
    have hsmall := n.small
    simp only [Fits, value, Numeral.value]
    omega
  | negation t, h => by
    rw [firstFault?_negation, Option.or_eq_none_iff] at h
    exact (fault?_eq_none_iff.mp h.2).2
  | operation op l r, h => by
    rw [firstFault?_operation, Option.or_eq_none_iff] at h
    exact (fault?_eq_none_iff.mp h.2).2

theorem toInt_value {t : Term} (h : t.firstFault? = none) :
    (Int64.ofInt t.value).toInt = t.value :=
  Int64.toInt_ofInt_of_le (fits_of_firstFault? h).1 (fits_of_firstFault? h).2

theorem result_of_fault {t : Term} {f : Fault} (h : t.firstFault? = some f) :
    t.result = f.toValue := by
  rw [result, h]

theorem result_of_none {t : Term} (h : t.firstFault? = none) :
    t.result = .integer (Int64.ofInt t.value) := by
  rw [result, h]

/-- If the outermost operation is the only one that can fail, the result is what it gives. -/
theorem result_of_outermost {t : Term} (h : t.firstFault? = t.fault?) :
    t.result = if t.DividesByZero then Fault.divisionByZero.toValue else Value.ofInt t.value := by
  rw [result, h, fault?, ofInt_eq]
  by_cases hzero : t.DividesByZero
  · simp only [if_pos hzero]
  · by_cases hfits : Fits t.value
    · simp only [if_neg hzero, if_pos hfits]
    · simp only [if_neg hzero, if_neg hfits]

/-! ### Evaluation -/

/-- The tree of a term, with no more of its tokens than the text of the literals. -/
def tree : Term → Expr
  | literal n => .integer (Token.bare n.text) (Int64.ofInt n.value)
  | negation t => .unary (Token.bare "") "-" t.tree
  | operation op l r => .binary (Token.bare "") op.symbol l.tree r.tree

theorem render_tree : ∀ t : Term, t.tree.render = t.text
  | literal n => rfl
  | negation t => by
    rw [tree, Expr.render, render_tree t, text]
    rfl
  | operation op l r => by rw [tree, Expr.render, render_tree l, render_tree r, text]

theorem printable_tree : ∀ t : Term, t.tree.Printable
  | literal n => by
    rw [tree, Expr.Printable]
    exact ⟨n.isDigits, n.small, rfl⟩
  | negation t => by
    rw [tree, Expr.Printable]
    exact ⟨by decide, printable_tree t⟩
  | operation op l r => by
    rw [tree, Expr.Printable]
    exact ⟨by cases op <;> decide, printable_tree l, printable_tree r⟩

/-- What has the bare tree of a literal is that literal. -/
theorem exists_of_bare_literal {x : Expr} {n : Numeral} (h : x.bare = (literal n).tree.bare) :
    ∃ token, x = .integer token (Int64.ofInt n.value) := by
  rw [tree, Expr.bare] at h
  cases x with
  | integer token v =>
    rw [Expr.bare, Expr.integer.injEq] at h
    exact ⟨token, h.2 ▸ rfl⟩
  | conditional token c b a => cases a <;> simp [Expr.bare] at h
  | _ => simp [Expr.bare] at h

theorem exists_of_bare_negation {x : Expr} {t : Term} (h : x.bare = (negation t).tree.bare) :
    ∃ token y, x = .unary token "-" y ∧ y.bare = t.tree.bare := by
  rw [tree, Expr.bare] at h
  cases x with
  | unary token op y =>
    rw [Expr.bare, Expr.unary.injEq] at h
    obtain ⟨-, rfl, hy⟩ := h
    exact ⟨token, y, rfl, hy⟩
  | conditional token c b a => cases a <;> simp [Expr.bare] at h
  | _ => simp [Expr.bare] at h

theorem exists_of_bare_operation {x : Expr} {op : Operator} {l r : Term}
    (h : x.bare = (operation op l r).tree.bare) :
    ∃ token y z, x = .binary token op.symbol y z ∧ y.bare = l.tree.bare ∧
      z.bare = r.tree.bare := by
  rw [tree, Expr.bare] at h
  cases x with
  | binary token symbol y z =>
    rw [Expr.bare, Expr.binary.injEq] at h
    obtain ⟨-, rfl, hy, hz⟩ := h
    exact ⟨token, y, z, rfl, hy, hz⟩
  | conditional token c b a => cases a <;> simp [Expr.bare] at h
  | _ => simp [Expr.bare] at h

/-- An operator between the values of two terms gives what the operation gives. -/
theorem binary_integer {op : Operator} {l r : Term} (hl : l.firstFault? = none)
    (hr : r.firstFault? = none) :
    Value.binary op.symbol (.integer (Int64.ofInt l.value)) (.integer (Int64.ofInt r.value)) =
      if (operation op l r).DividesByZero then Fault.divisionByZero.toValue
      else Value.ofInt (operation op l r).value := by
  have hzero : Int64.ofInt r.value = 0 ↔ r.value = 0 := by
    rw [← Int64.toInt_inj, toInt_value hr, Int64.toInt_zero]
  cases op with
  | quotient =>
    show (if Int64.ofInt r.value = 0 then _ else _) = if r.value = 0 then _ else _
    simp only [hzero, toInt_value hl, toInt_value hr, value, Operator.compute]
  | sum | difference | product =>
    show Value.ofInt _ = Value.ofInt _
    rw [toInt_value hl, toInt_value hr]
    rfl

section Evaluation

variable (library : Library) (apply : Apply)

/-- Whatever tokens it is read from, a term has its result as its value. -/
theorem eval_of_bare : ∀ {t : Term} {x : Expr}, x.bare = t.tree.bare → ∀ scope : Scope,
    x.eval library apply scope = pure t.result
  | literal n, x, h, scope => by
    obtain ⟨token, rfl⟩ := exists_of_bare_literal h
    rw [Expr.eval]
    rfl
  | negation t, x, h, scope => by
    obtain ⟨token, y, rfl, hy⟩ := exists_of_bare_negation h
    rw [Expr.eval, eval_of_bare hy scope, Eval.unlessSignal_pure]
    cases ht : t.firstFault? with
    | some f =>
      have hfirst : (negation t).firstFault? = some f := by
        rw [firstFault?_negation, ht, Option.some_or]
      rw [result_of_fault ht, result_of_fault hfirst]
      rfl
    | none =>
      have houtermost : (negation t).firstFault? = (negation t).fault? := by
        rw [firstFault?_negation, ht, Option.none_or]
      rw [result_of_none ht, result_of_outermost houtermost]
      show pure (Value.ofInt (-(Int64.ofInt t.value).toInt)) = pure (Value.ofInt (-t.value))
      rw [toInt_value ht]
  | operation op l r, x, h, scope => by
    obtain ⟨token, y, z, rfl, hy, hz⟩ := exists_of_bare_operation h
    rw [Expr.eval, eval_of_bare hy scope, eval_of_bare hz scope, Eval.unlessSignal_pure,
      Eval.unlessSignal_pure]
    -- the left operand is evaluated first, so a fault in it is the first one of the operation
    have hfirst := firstFault?_operation op l r
    cases hl : l.firstFault? with
    | some f =>
      rw [hl, Option.some_or, Option.some_or] at hfirst
      rw [result_of_fault hl, result_of_fault hfirst]
      rfl
    | none =>
      rw [hl, Option.none_or] at hfirst
      rw [result_of_none hl]
      cases hr : r.firstFault? with
      | some f =>
        rw [hr, Option.some_or] at hfirst
        rw [result_of_fault hr, result_of_fault hfirst]
        rfl
      | none =>
        rw [hr, Option.none_or] at hfirst
        rw [result_of_none hr, result_of_outermost hfirst, ← binary_integer hl hr]
        rfl

end Evaluation

/-- The text of a term is read as its tree, but for the tokens. -/
theorem exists_expression (t : Term) :
    ∃ x, Expression .postfixed (Token.scan t.text).tokens x ∧ x.bare = t.tree.bare := by
  have hwords := t.tree.reads_render t.printable_tree [] (by simp [Delimited])
  rw [render_tree, List.append_nil, words_nil, List.append_nil] at hwords
  exact t.tree.exists_of_spelling t.printable_tree _ hwords

theorem unwrapReturned_result (t : Term) : t.result.unwrapReturned = t.result := by
  unfold result
  split <;> rfl

theorem runSource_eq_result (e : Evaluator) (t : Term) (scope : Scope) (m : Machine) :
    e.runSource t.text scope m = (.ran (.value t.result), m) := by
  obtain ⟨x, hx, hbare⟩ := t.exists_expression
  exact e.runSource_of_expression (hx.loosen (by decide))
    (eval_of_bare e.library e.apply hbare scope) t.unwrapReturned_result m

end Term

/-- **Integer expressions agree with exact arithmetic.** Take the source text of a term, parse it
and run it, on any machine and with any depth limit. If no operation of the term divides by zero
or gives a number that does not have 64 bits, this gives the value of the term in the integers.
Otherwise it gives the error of the first operation that does: that of a division by zero if its
divisor is zero, and else that of an overflow. -/
theorem runSource_text (e : Evaluator) (t : Term) (scope : Scope) (m : Machine) :
    ((∀ s ∈ t.operations, ¬s.DividesByZero ∧ Fits s.value) ∧
        ∃ n : Int64, n.toInt = t.value ∧
          e.runSource t.text scope m = (.ran (.value (.integer n)), m)) ∨
      ∃ before s after, t.operations = before ++ s :: after ∧
        (∀ u ∈ before, ¬u.DividesByZero ∧ Fits u.value) ∧
        (s.DividesByZero ∧
            e.runSource t.text scope m = (.ran (.value (.error "division by zero")), m) ∨
          ¬s.DividesByZero ∧ ¬Fits s.value ∧
            e.runSource t.text scope m = (.ran (.value (.error "integer overflow")), m)) := by
  have hrun := t.runSource_eq_result e scope m
  cases hfirst : t.firstFault? with
  | none =>
    rw [Term.result_of_none hfirst] at hrun
    refine .inl ⟨fun s hs => ?_, _, Term.toInt_value hfirst, hrun⟩
    exact Term.fault?_eq_none_iff.mp (List.findSome?_eq_none_iff.mp hfirst s hs)
  | some f =>
    rw [Term.result_of_fault hfirst] at hrun
    obtain ⟨before, s, after, hsplit, hs, hbefore⟩ := List.findSome?_eq_some_iff.mp hfirst
    refine .inr ⟨before, s, after, hsplit, fun u hu =>
      Term.fault?_eq_none_iff.mp (hbefore u hu), ?_⟩
    unfold Term.fault? at hs
    split at hs
    · next hzero =>
      obtain rfl := Option.some.inj hs
      exact .inl ⟨hzero, hrun⟩
    · next hzero =>
      split at hs
      · cases hs
      · next hfits =>
        obtain rfl := Option.some.inj hs
        exact .inr ⟨hzero, hfits, hrun⟩

/-- The quotient of `-2^63` and `-1` does not fit, and neither does the negation of `-2^63`. -/
example :
    let one : Term := .literal (.ofNat 1 (by decide))
    let largest : Term := .literal (.ofNat 0x7fffffffffffffff (by decide))
    let smallest : Term := .operation .difference (.negation largest) one
    smallest.firstFault? = none ∧ smallest.value = -0x8000000000000000 ∧
      (Term.operation .quotient smallest (.negation one)).firstFault? = some .integerOverflow ∧
      (Term.negation smallest).firstFault? = some .integerOverflow := by
  decide +kernel

/-! ## The text of an integer -/

/-- Parentheses around the text of a term change nothing. -/
theorem Term.runSource_parenthesised (e : Evaluator) (t : Term) (scope : Scope) (m : Machine) :
    e.runSource ("(" ++ t.text ++ ")") scope m = (.ran (.value t.result), m) := by
  have hread := t.tree.reads_render t.printable_tree [')'] (by simp; decide)
  rw [render_tree] at hread
  have hwords : (Token.scan ("(" ++ t.text ++ ")")).tokens.map Token.word =
      Kind.lparen.word :: (t.tree.spelling ++ [Kind.rparen.word]) := by
    show words _ = _
    simp [words_symbol (c := '(') rfl, words_symbol (c := ')') rfl, hread]
  simp only [List.map_eq_cons_iff, List.map_eq_append_iff, List.map_eq_nil_iff] at hwords
  obtain ⟨o, _, htokens, ho, us, _, rfl, hus, c, _, rfl, hc, rfl⟩ := hwords
  obtain ⟨x, hx, hbare⟩ := t.tree.exists_of_spelling t.printable_tree us hus
  have hgroup := (postfixed_of_group ho (hx.loosen (by decide)) hc).loosen
    (σ := .equality) (by decide)
  rw [← htokens] at hgroup
  exact e.runSource_of_expression hgroup (eval_of_bare e.library e.apply hbare scope)
    t.unwrapReturned_result m

theorem render_integer (n : Int64) : (Value.integer n).render = n.toInt.repr := rfl

theorem render_integer_of_nonneg {n : Int64} (h : 0 ≤ n.toInt) :
    (Value.integer n).render = toString n.toInt.toNat := by
  rw [render_integer, Int.repr_eq_if, if_pos h, Nat.toString_eq_repr]

theorem render_integer_of_neg {n : Int64} (h : n.toInt < 0) :
    (Value.integer n).render = "-" ++ toString (-n.toInt).toNat := by
  rw [render_integer, Int.repr_eq_if, if_neg (by omega), Nat.toString_eq_repr]

/-- Every integer but the smallest one is the result of the text that it is shown as. -/
theorem runSource_render_integer (e : Evaluator) {n : Int64} (h : n ≠ Int64.minValue)
    (scope : Scope) (m : Machine) :
    e.runSource ("(" ++ (Value.integer n).render ++ ")") scope m =
      (.ran (.value (.integer n)), m) := by
  have hlow : -0x8000000000000000 < n.toInt := by
    have hle := n.le_toInt
    have hne : n.toInt ≠ -0x8000000000000000 := fun heq =>
      h (Int64.toInt_inj.mp (heq.trans Int64.toInt_minValue.symm))
    omega
  have hhigh := n.toInt_lt
  by_cases hneg : n.toInt < 0
  -- the sign is an operator before the digits of the absolute value
  · have hsmall : (-n.toInt).toNat ≤ 0x7fffffffffffffff := by omega
    let t : Term := .negation (.literal (.ofNat _ hsmall))
    have htext : "(" ++ (Value.integer n).render ++ ")" = t.text := by
      rw [render_integer_of_neg hneg, ← String.append_assoc]
      rfl
    have hvalue : t.value = n.toInt := by
      show -((Numeral.ofNat _ hsmall).value : Int) = n.toInt
      rw [Numeral.value_ofNat]
      omega
    have hfault : t.fault? = none :=
      Term.fault?_eq_none_iff.mpr ⟨id, hvalue ▸ ⟨Int.le_of_lt hlow, hhigh⟩⟩
    have hfirst : t.firstFault? = none := by
      rw [Term.firstFault?_negation, hfault]
      rfl
    rw [htext, t.runSource_eq_result, Term.result_of_none hfirst, hvalue, Int64.ofInt_toInt]
  · have hsmall : n.toInt.toNat ≤ 0x7fffffffffffffff := by omega
    let t : Term := .literal (.ofNat _ hsmall)
    have htext : (Value.integer n).render = t.text := render_integer_of_nonneg (by omega)
    have hvalue : t.value = n.toInt := by
      show ((Numeral.ofNat _ hsmall).value : Int) = n.toInt
      rw [Numeral.value_ofNat]
      omega
    rw [htext, t.runSource_parenthesised, Term.result_of_none rfl, hvalue, Int64.ofInt_toInt]

/-- The diagnostic about the text of the smallest integer: its digits denote `2^63`. -/
theorem diagnostics_render_minValue :
    (parse ("(" ++ (Value.integer Int64.minValue).render ++ ")")).diagnostics =
      [.integerRange ⟨.int, "9223372036854775808", ⟨1, 3⟩⟩] := by
  decide +kernel

/-- **Every integer but the smallest one can be written back.** The text that an integer is shown
as, put in parentheses, is parsed without diagnostics and run, on any machine and with any depth
limit, gives that integer, if and only if the integer is not `-2^63`. -/
theorem integer_written_back_iff (e : Evaluator) (n : Int64) (scope : Scope) (m : Machine) :
    (parse ("(" ++ (Value.integer n).render ++ ")")).diagnostics = [] ∧
        e.runSource ("(" ++ (Value.integer n).render ++ ")") scope m =
          (.ran (.value (.integer n)), m) ↔
      n ≠ Int64.minValue := by
  constructor
  · rintro ⟨hnone, -⟩ rfl
    cases hnone.symm.trans diagnostics_render_minValue
  · intro hne
    have hrun := runSource_render_integer e hne scope m
    exact ⟨e.diagnostics_eq_nil_of_ran hrun, hrun⟩

/-- The smallest integer is shown as a text that is refused. -/
theorem smallest_integer_not_written_back :
    (parse ("(" ++ (Value.integer Int64.minValue).render ++ ")")).diagnostics ≠ [] ∧
      ((Evaluator.standard Evaluator.defaultDepth).runSource
          ("(" ++ (Value.integer Int64.minValue).render ++ ")") Machine.new.root.1
          Machine.new.root.2).1 =
        .malformed [.integerRange ⟨.int, "9223372036854775808", ⟨1, 3⟩⟩] := by
  have hsome := diagnostics_render_minValue
  generalize "(" ++ (Value.integer Int64.minValue).render ++ ")" = source at hsome ⊢
  simp [Evaluator.runSource, hsome]

end Arithmetic

end Monkey
